import BlindBoard.Proof.LimboResolution
import BlindBoard.Proof.Clients

/-!
# The documents of a view that are looked up

A view says how its keys in limbo have changed, and the sync engine goes through these changes
(`QueryView`). What the engine refers to on behalf of the view are the keys in limbo, once it has
gone through all of them; so, in every run, a document that a current view shows and
the service does not have is looked up or waits for that (`limbo_documents`), whatever the
engine does for other targets in between.
-/

namespace BlindBoard.Firestore

open Lib

/-! ## Views -/

namespace View

variable {q : Query} {view view' : View q} {change : ViewChange q}

/-- How a change of a view moves the keys in limbo. -/
structure Moves (keys : DocumentKeySet) (view' : View q)
    (limboChanges : List LimboDocumentChange) : Prop where
  keys : limboChanges.foldl LimboDocumentChange.apply keys = view'.limboDocuments
  limbo : view'.current = true → ∀ key, key ∈ view'.limboDocuments ↔ view'.shouldBeInLimbo key = true

theorem Applied.moves {c : ViewDocumentChanges q} {targetChange : Option TargetChange}
    (h : view.Applied c targetChange view' change) : view'.Moves view.limboDocuments change.limboChanges :=
  ⟨h.limboChanges, h.limbo⟩

theorem emitNewSnapshot_moves {documents changes : DocumentMap} {targetChange : Option TargetChange}
    (h : view.emitNewSnapshot documents changes targetChange = some (view', change)) :
    view'.Moves view.limboDocuments change.limboChanges := by
  unfold emitNewSnapshot at h
  obtain ⟨_, -, h⟩ := Option.bind_eq_some_iff.mp h
  dsimp only at h
  split at h
  · obtain ⟨_, -, h⟩ := Option.bind_eq_some_iff.mp h
    exact (applied_of_some h).moves
  · exact (applied_of_some h).moves

theorem initializeView_moves {documents : DocumentMap} {remoteKeys : DocumentKeySet}
    {targetChange : Option TargetChange}
    (h : initializeView q documents remoteKeys targetChange = some (view', change)) :
    view'.Moves .empty change.limboChanges := by
  unfold initializeView at h
  obtain ⟨_, -, h⟩ := Option.bind_eq_some_iff.mp h
  exact (applied_of_some h).moves

theorem applyOnlineStateChange_moves {onlineState : OnlineState} {keys : DocumentKeySet}
    (hv : view.Moves keys [])
    (h : view.applyOnlineStateChange onlineState = some (view', change)) :
    view'.Moves view.limboDocuments change.limboChanges := by
  unfold applyOnlineStateChange at h
  split at h
  · exact (applied_of_some h).moves
  · cases h
    exact ⟨rfl, hv.limbo⟩

end View

namespace QueryView

variable {q : Query} {s s' : QueryView q}

/-! ## Steps of the engine -/

/-- The step of the engine that a step is. -/
def engineAction (s : QueryView q) : QueryViewAction → Option LimboAction
  | .updateTrackedLimboDocument =>
    s.limboChanges.head?.map fun limboChange => .updateTrackedLimboDocument limboChange s.targetId
  | .removeAndCleanupTarget => some (.removeAndCleanupTarget s.targetId)
  | .syncEngine action => some action
  | .initializeView _ _ _ | .emitNewSnapshot _ _ _ | .applyOnlineStateChange _ => none

/-- No key comes into limbo of which the queue has a removed entry. -/
def Fresh (s : QueryView q) (a : QueryViewAction) : Prop :=
  ∀ action ∈ s.engineAction a, s.syncEngine.Fresh action

instance (s : QueryView q) : DecidablePred s.Fresh := fun a =>
  inferInstanceAs (Decidable (∀ action ∈ s.engineAction a, s.syncEngine.Fresh action))

/-- A lookup is rejected. -/
def Rejects (a : QueryViewAction) : Prop := ∃ targetId, a = .syncEngine (.handleRejectedListen targetId)

/-- What the engine refers to for the target. -/
def Refers (s : QueryView q) (keys : DocumentKeySet) : Prop :=
  ∀ key, key ∈ keys ↔ (key, s.targetId) ∈ s.syncEngine.limboDocumentRefs

/-- The engine's references and the changes that it has not gone through lead to the keys in limbo. -/
structure Tracks (s : QueryView q) (keys : DocumentKeySet) : Prop where
  refers : s.Refers keys
  moves : ∀ view, s.view = some view → view.Moves keys s.limboChanges
  none : s.view = none → keys = .empty ∧ s.limboChanges = []

/-- Between two steps. -/
structure Kept (max : ℕ) (s : QueryView q) : Prop where
  kept : s.syncEngine.Kept
  busy : s.syncEngine.Busy
  max : s.syncEngine.maxConcurrentLimboResolutions = max
  referenced : ∀ key, s.syncEngine.Pending key → s.syncEngine.Referenced key
  tracks : ∃ keys, s.Tracks keys

/-- What a step makes of the engine, and of the view with its limbo changes. -/
structure Stepped (s s' : QueryView q) (a : QueryViewAction) : Prop where
  engine : ∀ action ∈ s.engineAction a, s.syncEngine.step action = some s'.syncEngine
  idle : s.engineAction a = none → s'.syncEngine = s.syncEngine
  tracks : ∃ keys, s'.Tracks keys

theorem Stepped.idle_of {a : QueryViewAction} (hact : s.engineAction a = none)
    (he : s'.syncEngine = s.syncEngine)
    {keys : DocumentKeySet} (ht : s'.Tracks keys) : s.Stepped s' a where
  engine action h := by
    rw [hact] at h
    cases h
  idle _ := he
  tracks := ⟨keys, ht⟩

theorem Stepped.engine_of {a : QueryViewAction} {action : LimboAction} (hact : s.engineAction a = some action)
    (he : s.syncEngine.step action = some s'.syncEngine) {keys : DocumentKeySet} (ht : s'.Tracks keys) :
    s.Stepped s' a where
  engine action' h := by
    rw [hact] at h
    cases h
    exact he
  idle h := by
    rw [hact] at h
    cases h
  tracks := ⟨keys, ht⟩

theorem Kept.stepped {max : ℕ} {a : QueryViewAction} (h : s.Kept max) (ha : s.Fresh a) (hs : s.Stepped s' a) :
    s'.Kept max ∧ (¬ Rejects a → (∀ key, s.syncEngine.Referenced key → s.syncEngine.Pending key) →
      ∀ key, s'.syncEngine.Referenced key → s'.syncEngine.Pending key) := by
  cases hact : s.engineAction a with
  | none =>
    have he := hs.idle hact
    refine ⟨⟨he ▸ h.kept, he ▸ h.busy, he ▸ h.max, he ▸ h.referenced, hs.tracks⟩, fun _ hold => ?_⟩
    rw [he]
    exact hold
  | some action =>
    have he := h.kept.step h.busy (ha action hact) (hs.engine action hact)
    refine ⟨⟨he.kept, he.busy, he.max.trans h.max, fun key =>
      he.referenced key (h.referenced key), hs.tracks⟩,
      fun hr hold key => he.pending (fun hrej => hr ?_) key (hold key)⟩
    cases action with
    | handleRejectedListen targetId =>
      cases a with
      | syncEngine action =>
        cases hact
        exact ⟨targetId, rfl⟩
      | updateTrackedLimboDocument =>
        obtain ⟨_, -, he⟩ := Option.map_eq_some_iff.mp hact
        cases he
      | removeAndCleanupTarget => cases hact
      | initializeView | emitNewSnapshot | applyOnlineStateChange => cases hact
    | updateTrackedLimboDocument | removeAndCleanupTarget | applyRemoteEvent => cases hrej

/-! ## What the engine refers to -/

/-- A step of the engine for another target leaves the references of this one. -/
theorem Refers.other {keys : DocumentKeySet} (h : s.Refers keys) {action : LimboAction}
    {syncEngine : SyncEngine}
    (ha : action.targetId ≠ some s.targetId)
    (hs : syncEngine.limboDocumentRefs = SyncEngine.refsAfter s.syncEngine.limboDocumentRefs action) :
    ({ s with syncEngine } : QueryView q).Refers keys := by
  intro key
  dsimp only
  rw [hs, h key]
  cases action with
  | updateTrackedLimboDocument limboChange targetId =>
    have hne : ¬ s.targetId = targetId := fun he => ha (congrArg some he.symm)
    cases limboChange with
    | added k =>
      refine Iff.trans ?_ ReferenceSet.mem_addReference.symm
      exact ⟨.inr, fun hk => hk.resolve_left fun he => hne he.2⟩
    | removed k =>
      refine Iff.trans ?_ ReferenceSet.mem_removeReference.symm
      exact ⟨fun hk => ⟨hk, fun he => hne he.2⟩, And.left⟩
  | removeAndCleanupTarget targetId =>
    have hne : ¬ s.targetId = targetId := fun he => ha (congrArg some he.symm)
    exact (ReferenceSet.mem_removeReferences.trans (and_iff_left hne)).symm
  | handleRejectedListen targetId | applyRemoteEvent targetId event => rfl

/-- A limbo change of the view changes the references as it changes the keys. -/
theorem Refers.apply {keys : DocumentKeySet} (h : s.Refers keys) {limboChange : LimboDocumentChange}
    {limboChanges : List LimboDocumentChange} {syncEngine : SyncEngine}
    (hs : syncEngine.limboDocumentRefs = SyncEngine.refsAfter s.syncEngine.limboDocumentRefs
      (.updateTrackedLimboDocument limboChange s.targetId)) :
    ({ s with limboChanges, syncEngine } : QueryView q).Refers
      (LimboDocumentChange.apply keys limboChange) := by
  intro key
  dsimp only
  rw [hs]
  cases limboChange with
  | added k =>
    refine Iff.trans ?_ ReferenceSet.mem_addReference.symm
    refine SortedSet.mem_insert_iff.trans (or_congr ?_ (h key))
    exact (and_iff_left rfl).symm
  | removed k =>
    refine Iff.trans ?_ ReferenceSet.mem_removeReference.symm
    refine SortedSet.mem_erase_iff.trans (and_congr (h key) (not_congr ?_))
    exact (and_iff_left rfl).symm

/-- With the view goes what the engine refers to. -/
theorem refers_removed {syncEngine : SyncEngine}
    (hs : syncEngine.limboDocumentRefs =
      SyncEngine.refsAfter s.syncEngine.limboDocumentRefs (.removeAndCleanupTarget s.targetId)) :
    ({ s with view := none, syncEngine } : QueryView q).Refers .empty := by
  intro key
  refine iff_of_false (fun hk => by cases hk) fun hk => ?_
  dsimp only at hk
  rw [hs] at hk
  exact (ReferenceSet.mem_removeReferences.mp hk).2 rfl

/-! ## Steps -/

theorem Tracks.take {keys : DocumentKeySet} (h : s.Tracks keys) {change : View q × ViewChange q}
    (hm : change.1.Moves keys change.2.limboChanges) : (s.take change).Tracks keys where
  refers := h.refers
  moves view hv := by
    cases hv
    exact hm
  none hv := by cases hv

theorem Kept.idleStep {max : ℕ} {a : QueryViewAction} (h : s.Kept max)
    (ha : s.Fresh a) (hnil : s.limboChanges = [])
    (hs : s.idleStep a = some s') : s.Stepped s' a := by
  obtain ⟨keys, ht⟩ := h.tracks
  have hkeys {view : View q} (hv : s.view = some view) : view.Moves keys [] := hnil ▸ ht.moves view hv
  cases a with
  | initializeView documents remoteKeys targetChange =>
    obtain ⟨hnone, hs⟩ := Option.ite_none_left_eq_some.mp hs
    obtain ⟨change, hc, rfl⟩ := Option.map_eq_some_iff.mp hs
    refine .idle_of rfl rfl (ht.take ?_)
    rw [(ht.none (Option.not_isSome_iff_eq_none.mp hnone)).1]
    exact View.initializeView_moves hc
  | emitNewSnapshot documents changes targetChange =>
    obtain ⟨view, hv, hs⟩ := Option.bind_eq_some_iff.mp hs
    obtain ⟨change, hc, rfl⟩ := Option.map_eq_some_iff.mp hs
    refine .idle_of rfl rfl (ht.take ?_)
    rw [show keys = view.limboDocuments from (hkeys hv).keys]
    exact View.emitNewSnapshot_moves hc
  | applyOnlineStateChange onlineState =>
    obtain ⟨view, hv, hs⟩ := Option.bind_eq_some_iff.mp hs
    obtain ⟨change, hc, rfl⟩ := Option.map_eq_some_iff.mp hs
    refine .idle_of rfl rfl (ht.take ?_)
    rw [show keys = view.limboDocuments from (hkeys hv).keys]
    exact View.applyOnlineStateChange_moves (hkeys hv) hc
  | updateTrackedLimboDocument => cases hs
  | removeAndCleanupTarget =>
    obtain ⟨syncEngine, he, rfl⟩ := Option.map_eq_some_iff.mp hs
    have hstep := h.kept.step h.busy (ha _ rfl) he
    refine .engine_of rfl he ⟨refers_removed hstep.refs, fun view hv => ?_, fun _ => ⟨rfl, hnil⟩⟩
    cases hv
  | syncEngine action =>
    obtain ⟨hne, hs⟩ := Option.ite_none_left_eq_some.mp hs
    obtain ⟨syncEngine, he, rfl⟩ := Option.map_eq_some_iff.mp hs
    have hstep := h.kept.step h.busy (ha _ rfl) he
    exact .engine_of rfl he ⟨ht.refers.other hne hstep.refs, ht.moves, ht.none⟩

theorem Kept.step {max : ℕ} {a : QueryViewAction} (h : s.Kept max) (ha : s.Fresh a)
    (hs : s.step a = some s') :
    s.Stepped s' a := by
  unfold QueryView.step at hs
  split at hs
  next hnil => exact h.idleStep ha hnil hs
  next limboChange limboChanges hcons =>
    obtain ⟨keys, ht⟩ := h.tracks
    obtain ⟨syncEngine, he, rfl⟩ := Option.map_eq_some_iff.mp hs
    have hact : s.engineAction .updateTrackedLimboDocument =
      some (.updateTrackedLimboDocument limboChange s.targetId) := by
      simp [engineAction, hcons]
    have hstep := h.kept.step h.busy (ha _ hact) he
    refine .engine_of hact he ⟨ht.refers.apply hstep.refs, fun view hv => ?_, fun hv => ?_⟩
    · have hm := ht.moves view hv
      rw [hcons] at hm
      exact ⟨hm.keys, hm.limbo⟩
    · rw [(ht.none hv).2] at hcons
      cases hcons
  · cases hs

/-! ## Runs -/

theorem kept_new (max targetId : ℕ) : (new max targetId : QueryView q).Kept max where
  kept := SyncEngine.kept_new max
  busy h := absurd rfl h
  max := rfl
  referenced key h := by
    rcases h with h | h
    · cases h
    · cases h
  tracks := by
    refine ⟨.empty, fun key => iff_of_false (fun h => ?_) fun h => ?_, fun view hv => ?_, fun _ => ⟨rfl, rfl⟩⟩
    · cases h
    · cases h
    · cases hv

theorem kept_of_runs {max targetId : ℕ} {as : List QueryViewAction}
    (h : Runs step Fresh (new max targetId) as s) :
    s.Kept max ∧ ((∀ a ∈ as, ¬ Rejects a) → ∀ key, s.syncEngine.Referenced key →
      s.syncEngine.Pending key) := by
  induction h with
  | nil =>
    refine ⟨kept_new max targetId, fun _ key href => ?_⟩
    obtain ⟨_, h⟩ := href
    cases h
  | snoc _ ha hs ih =>
    obtain ⟨hk, hp⟩ := ih.1.stepped ha (ih.1.step ha hs)
    refine ⟨hk, fun hno => hp (hno _ (by simp)) (ih.2 fun a ha => hno a (by simp [ha]))⟩

/-- In every run the engine looks each key up with one target and no more keys than it
may, and none that no target refers to; what it refers to for a view that is current are
the documents that the view shows without local mutations and the service does not have,
and unless a lookup was rejected, all of them are looked up or wait. -/
theorem limbo_documents {max targetId : ℕ} {as : List QueryViewAction}
    (h : Runs step Fresh (new max targetId) as s) :
    s.syncEngine.Sound max ∧
    (∀ a, (∀ id event, a ≠ .applyRemoteEvent id event) → (s.syncEngine.step a).isSome = true) ∧
    ∀ view, s.view = some view → view.current = true → s.limboChanges = [] →
      (∀ key, (key, s.targetId) ∈ s.syncEngine.limboDocumentRefs ↔ key ∉ view.syncedDocuments ∧
        ∃ doc, view.documentSet.getDocument key = some doc ∧ doc.hasLocalMutations = false) ∧
      ((∀ a ∈ as, ¬ Rejects a) → ∀ doc ∈ view.documentSet.toList, doc.key ∉ view.syncedDocuments →
        doc.hasLocalMutations = false → s.syncEngine.Pending doc.key) := by
  obtain ⟨hk, hpending⟩ := kept_of_runs h
  obtain ⟨keys, ht⟩ := hk.tracks
  refine ⟨hk.max ▸ hk.kept.sound hk.busy hk.referenced, fun a ha => hk.kept.isSome_step hk.busy ha,
    fun view hv hc hnil => ?_⟩
  have hm := ht.moves view hv
  rw [hnil] at hm
  have hrefs : ∀ key, (key, s.targetId) ∈ s.syncEngine.limboDocumentRefs ↔ key ∉ view.syncedDocuments ∧
      ∃ doc, view.documentSet.getDocument key = some doc ∧ doc.hasLocalMutations = false := fun key => by
    rw [← ht.refers, show keys = view.limboDocuments from hm.keys, hm.limbo hc, View.shouldBeInLimbo_iff]
  refine ⟨hrefs, fun hno doc hd hsynced hlocal => hpending hno doc.key ⟨s.targetId, ?_⟩⟩
  exact (hrefs doc.key).mpr ⟨hsynced, doc, DocumentSet.mem_toList.mp hd, hlocal⟩

/-- Another target has a document looked up, and the dog waits: the view shows it, and the
service has the cat only. -/
def dogWaits : List QueryViewAction :=
  [.syncEngine (.updateTrackedLimboDocument (.added ["board", "owl"]) 4),
    .initializeView Client.catAndDog .empty none,
    .emitNewSnapshot Client.catAndDog .empty (some Client.catCurrent),
    .updateTrackedLimboDocument]

theorem dogWaits_run : (run step (new 1 2 : QueryView Client.latestWords) dogWaits).isSome = true := by
  decide +kernel

def dogWaiting : QueryView Client.latestWords := (run step (new 1 2) dogWaits).get dogWaits_run

theorem runs_dogWaits : Runs step Fresh (new 1 2) dogWaits dogWaiting :=
  runs_of_guarded (Option.some_get dogWaits_run).symm (by decide +kernel)

theorem dogWaiting_view : (dogWaiting.view.any fun view => view.current && dogWaiting.limboChanges.isEmpty &&
    decide (Client.writtenAt "dog" "2022-10-01T10:00:00Z" .synced ∈ view.documentSet.toList) &&
    decide (["board", "dog"] ∉ view.syncedDocuments)) = true := by decide +kernel

theorem limbo_documents_dog :
    dogWaiting.syncEngine.Sound 1 ∧ dogWaiting.syncEngine.Pending ["board", "dog"] := by
  obtain ⟨view, hv, hview⟩ := (Option.any_eq_true _ _).mp dogWaiting_view
  simp only [Bool.and_eq_true, decide_eq_true_eq, List.isEmpty_iff] at hview
  obtain ⟨⟨⟨hcurrent, hnil⟩, hdog⟩, hsynced⟩ := hview
  obtain ⟨hs, -, hpending⟩ := limbo_documents runs_dogWaits
  refine ⟨hs, (hpending view hv hcurrent hnil).2 (fun a ha => ?_) _ hdog hsynced rfl⟩
  rintro ⟨_, rfl⟩
  simp [dogWaits] at ha

end QueryView

end BlindBoard.Firestore
