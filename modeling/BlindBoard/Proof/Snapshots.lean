import BlindBoard.Proof.Refill

/-!
# What a snapshot says

`applyChanges` takes over the documents of a pass (`applyChanges_applied`). The view is
synced if it is current and no document is in limbo; while it is current, those in
limbo are the documents without local mutations that the service does not have. The
limbo changes say how the keys in limbo have changed, and a snapshot is made exactly if
a document or the sync state has.
-/

namespace BlindBoard.Firestore

open Lib

/-- The keys in limbo after a change of them. -/
def LimboDocumentChange.apply (keys : DocumentKeySet) : LimboDocumentChange → DocumentKeySet
  | .added key => keys.insert key
  | .removed key => keys.erase key

/-- The target has the documents that it says are modified. -/
def TargetChange.Fits (targetChange : TargetChange) (syncedDocuments : DocumentKeySet) : Prop :=
  ∀ key ∈ targetChange.modifiedDocuments.toList, key ∈ syncedDocuments ∨
    key ∈ targetChange.addedDocuments.toList

instance (targetChange : TargetChange) (syncedDocuments : DocumentKeySet) :
    Decidable (targetChange.Fits syncedDocuments) :=
  inferInstanceAs (Decidable (∀ key ∈ targetChange.modifiedDocuments.toList,
    key ∈ syncedDocuments ∨ key ∈ targetChange.addedDocuments.toList))

namespace View

variable {q : Query} {view : View q}

/-- What a snapshot has of a view that is now `view'`. -/
structure Pictures (view view' : View q) (c : ViewDocumentChanges q) (snapshot : ViewSnapshot q) : Prop where
  documents : snapshot.documents = view'.documentSet
  oldDocuments : snapshot.oldDocuments = view.documentSet
  documentChanges : snapshot.documentChanges = sortedChanges q c.changeSet
  mutatedKeys : snapshot.mutatedKeys = view'.mutatedKeys
  fromCache : snapshot.fromCache = decide (view'.syncState = .local)
  syncStateChanged : snapshot.syncStateChanged = decide (view'.syncState ≠ view.syncState)

/-- The view that `applyChanges` makes of a view, and what it says of it. -/
structure Applied (view : View q) (c : ViewDocumentChanges q) (targetChange : Option TargetChange)
    (view' : View q)
    (change : ViewChange q) : Prop where
  target : view.applyTargetChange targetChange =
    some { view with syncedDocuments := view'.syncedDocuments, current := view'.current }
  documentSet : view'.documentSet = c.documentSet
  mutatedKeys : view'.mutatedKeys = c.mutatedKeys
  syncState : view'.syncState = view'.nextSyncState
  limbo : view'.current = true → ∀ key, key ∈ view'.limboDocuments ↔ view'.shouldBeInLimbo key = true
  limboChanges : change.limboChanges.foldl LimboDocumentChange.apply view.limboDocuments =
    view'.limboDocuments
  unchanged : view'.current = false → change.limboChanges = []
  snapshot : change.snapshot.isSome = true ↔ sortedChanges q c.changeSet ≠ [] ∨
    view'.syncState ≠ view.syncState
  pictures : ∀ s, change.snapshot = some s → Pictures view view' c s

theorem applyTargetChange_eq {targetChange : Option TargetChange}
    (ht : ∀ t, targetChange = some t → t.Fits view.syncedDocuments) :
    ∃ syncedDocuments current, view.applyTargetChange targetChange =
      some { view with syncedDocuments, current } := by
  cases targetChange with
  | none => exact ⟨_, _, rfl⟩
  | some t =>
    refine ⟨_, _, if_pos ?_⟩
    rw [List.all_eq_true]
    intro key hkey
    exact decide_eq_true (SortedSet.mem_foldl_insert.mpr (ht t rfl key hkey))

theorem shouldBeInLimbo_iff {key : Path} : view.shouldBeInLimbo key = true ↔ key ∉ view.syncedDocuments ∧
    ∃ doc, view.documentSet.getDocument key = some doc ∧ doc.hasLocalMutations = false := by
  unfold shouldBeInLimbo
  by_cases hk : key ∈ view.syncedDocuments
  · simp [hk]
  · cases hg : view.documentSet.getDocument key <;> simp [hk]

theorem mem_foldl_limbo {docs : List Document} {keys : DocumentKeySet} {key : Path} :
    key ∈ docs.foldl
        (fun keys doc => if view.shouldBeInLimbo doc.key then SortedSet.insert keys doc.key else keys) keys ↔
      key ∈ keys ∨ view.shouldBeInLimbo key = true ∧ key ∈ docs.map Document.key := by
  induction docs generalizing keys with
  | nil => simp
  | cons doc docs ih =>
    rw [List.foldl_cons, ih, List.map_cons, List.mem_cons]
    by_cases hd : view.shouldBeInLimbo doc.key = true
    · rw [if_pos hd, SortedSet.mem_insert_iff]
      constructor
      · rintro ((rfl | h) | h)
        · exact .inr ⟨hd, .inl rfl⟩
        · exact .inl h
        · exact .inr ⟨h.1, .inr h.2⟩
      · rintro (h | ⟨h, rfl | hk⟩)
        · exact .inl (.inr h)
        · exact .inl (.inl rfl)
        · exact .inr ⟨h, hk⟩
    · rw [if_neg hd]
      refine or_congr_right (and_congr_right fun h => (or_iff_right ?_).symm)
      rintro rfl
      exact hd h

/-- The keys in limbo are found, and the changes lead to them. -/
theorem updateLimboDocuments_eq (view : View q) :
    ∃ limboDocuments changes, view.updateLimboDocuments = ({ view with limboDocuments }, changes) ∧
      (view.current = true → ∀ key, key ∈ limboDocuments ↔ view.shouldBeInLimbo key = true) ∧
      (view.current = false → changes = []) ∧
      changes.foldl LimboDocumentChange.apply view.limboDocuments = limboDocuments := by
  unfold updateLimboDocuments
  by_cases hc : view.current = true
  · rw [if_pos hc]
    refine ⟨_, _, rfl, fun _ key => ?_, fun h => ?_, ?_⟩
    · rw [mem_foldl_limbo]
      refine ⟨fun h => ?_, fun h => .inr ⟨h, ?_⟩⟩
      · rcases h with h | h
        · cases h
        · exact h.1
      · obtain ⟨-, doc, hd, -⟩ := shouldBeInLimbo_iff.mp h
        have hk := DocumentSet.getDocument_key hd
        exact List.mem_map.mpr ⟨doc, DocumentSet.mem_toList.mpr (hk ▸ hd), hk⟩
    · rw [hc] at h
      cases h
    · have herase (l : List Path) (keys : DocumentKeySet) :
          (l.map .removed).foldl LimboDocumentChange.apply keys = l.foldl SortedSet.erase keys := by
        rw [List.foldl_map]
        rfl
      have hinsert (l : List Path) (keys : DocumentKeySet) :
          (l.map .added).foldl LimboDocumentChange.apply keys = l.foldl SortedSet.insert keys := by
        rw [List.foldl_map]
        rfl
      rw [List.foldl_append, herase, hinsert]
      refine SortedSet.eq_of_mem fun key => ?_
      rw [SortedSet.mem_foldl_insert, SortedSet.mem_foldl_erase, List.mem_filter, List.mem_filter]
      simp only [decide_eq_true_eq, SortedSet.mem_def]
      tauto
  · rw [if_neg hc]
    exact ⟨view.limboDocuments, [], rfl, fun h => absurd h hc, fun _ => rfl, rfl⟩

theorem sortChanges_eq {changes : DocumentViewChangeSet} {sorted : List DocumentViewChange}
    (h : sortChanges q changes = some sorted) : sorted = sortedChanges q changes :=
  (Option.some.inj (Option.ite_none_right_eq_some.mp h).2).symm

/-- The documents of changes can be compared, as the query matches them. -/
theorem sortChanges_isSome {c : ViewDocumentChanges q} {old : DocumentSet q} (h : Noted old c) :
    (sortChanges q c.changeSet).isSome = true := by
  have hpairs : (c.changeSet.entries.map Sigma.snd).Pairwise fun lhs rhs =>
      changePosition lhs.type = changePosition rhs.type →
        (q.comparator lhs.document rhs.document).isSome = true := by
    have matches_of {change : DocumentViewChange} (hc : change ∈ c.changeSet.entries.map Sigma.snd) :
        q.Matches change.document = true := by
      obtain ⟨e, he, rfl⟩ := List.mem_map.mp hc
      exact h.matched e.1 e.2 (AList.mem_lookup_iff.mpr he)
    refine List.pairwise_of_forall_mem_list fun lhs hl rhs hrhs _ => ?_
    rw [Query.comparator_of_matches (matches_of hl) (matches_of hrhs)]
    rfl
  rw [sortChanges, if_pos hpairs]
  rfl

/-- The changes of a pass are taken over. -/
theorem applyChanges_applied {c : ViewDocumentChanges q} {targetChange : Option TargetChange}
    (hr : c.needsRefill = false)
    (hsort : (sortChanges q c.changeSet).isSome = true)
    (ht : ∀ t, targetChange = some t → t.Fits view.syncedDocuments) :
    ∃ view' change, view.applyChanges c targetChange = some (view', change) ∧
      view.Applied c targetChange view' change := by
  -- the target change does not see the documents
  obtain ⟨syncedDocuments, current, htarget⟩ := applyTargetChange_eq ht
  have htc : ({ view with documentSet := c.documentSet, mutatedKeys := c.mutatedKeys } :
    View q).applyTargetChange targetChange =
      some ⟨c.documentSet, syncedDocuments, view.limboDocuments, c.mutatedKeys, view.syncState, current⟩ := by
    cases targetChange with
    | none =>
      have he := Option.some.inj htarget
      obtain rfl : syncedDocuments = view.syncedDocuments := (congrArg View.syncedDocuments he).symm
      obtain rfl : current = view.current := (congrArg View.current he).symm
      rfl
    | some t =>
      obtain ⟨hall, he⟩ := Option.ite_none_right_eq_some.mp htarget
      cases he
      exact if_pos hall
  obtain ⟨limboDocuments, changes, hl, hlimbo, hnone, hfold⟩ := updateLimboDocuments_eq
    (⟨c.documentSet, syncedDocuments, view.limboDocuments, c.mutatedKeys, view.syncState, current⟩ : View q)
  obtain ⟨sorted, hsorted⟩ := Option.isSome_iff_exists.mp hsort
  obtain rfl := sortChanges_eq hsorted
  unfold applyChanges
  rw [if_neg (by simp [hr])]
  dsimp only at htc ⊢
  rw [hsorted]
  simp only [bind, Option.bind]
  rw [htc]
  dsimp only
  rw [hl]
  refine ⟨_, _, rfl, htarget, rfl, rfl, rfl, hlimbo, hfold, hnone, ?_, ?_⟩
  · dsimp only
    by_cases h : ((sortedChanges q c.changeSet).isEmpty && !decide (nextSyncState
      (⟨c.documentSet, syncedDocuments, limboDocuments, c.mutatedKeys, view.syncState, current⟩ :
        View q) ≠ view.syncState)) = true
    · rw [if_pos h]
      simp_all
    · rw [if_neg h]
      simp only [Option.isSome_some, true_iff]
      by_contra hn
      exact h (by simp_all)
  · intro s hs
    obtain ⟨-, hs⟩ := Option.ite_none_left_eq_some.mp hs
    cases hs
    exact ⟨rfl, rfl, rfl, rfl, rfl, rfl⟩

/-- Whatever `applyChanges` makes of a view. -/
theorem applied_of_some {c : ViewDocumentChanges q} {targetChange : Option TargetChange}
    {view' : View q} {change : ViewChange q}
    (h : view.applyChanges c targetChange = some (view', change)) :
    view.Applied c targetChange view' change := by
  have hr : c.needsRefill = false := by
    unfold applyChanges at h
    cases hn : c.needsRefill with
    | false => rfl
    | true => simp [hn] at h
  have hsome := h
  unfold applyChanges at hsome
  simp only [hr, Bool.false_eq_true, if_false, bind, Option.bind_eq_some_iff] at hsome
  obtain ⟨sorted, hsorted, taken, htaken, -⟩ := hsome
  have ht : ∀ t, targetChange = some t → t.Fits view.syncedDocuments := by
    rintro t rfl
    obtain ⟨hall, -⟩ := Option.ite_none_right_eq_some.mp htaken
    intro key hkey
    exact SortedSet.mem_foldl_insert.mp (of_decide_eq_true (List.all_eq_true.mp hall key hkey))
  obtain ⟨_, _, he, ha⟩ := applyChanges_applied hr (by rw [hsorted]; rfl) ht
  cases h.symm.trans he
  exact ha

/-- A view between two steps. -/
structure Sound (documents : DocumentMap) (view : View q) : Prop where
  marked : view.Marked
  follows : Follows documents view.documentSet
  syncState : view.syncState = view.nextSyncState
  limbo : view.current = true → ∀ key, key ∈ view.limboDocuments ↔ view.shouldBeInLimbo key = true

theorem Applied.sound {documents : DocumentMap} {c : ViewDocumentChanges q}
    {targetChange : Option TargetChange}
    {view' : View q} {change : ViewChange q} {old : DocumentSet q}
    (ha : view.Applied c targetChange view' change)
    (hn : Noted old c) (hf : Follows documents c.documentSet) : view'.Sound documents where
  marked := by
    refine ⟨fun key => ?_, ha.documentSet ▸ hn.matching⟩
    rw [ha.mutatedKeys, ha.documentSet]
    exact hn.mutated key
  follows := ha.documentSet ▸ hf
  syncState := ha.syncState
  limbo := ha.limbo

/-- A view is synced or local. -/
theorem Sound.synced_of_ne {documents : DocumentMap} (h : view.Sound documents)
    (hs : view.syncState ≠ .local) :
    view.syncState = .synced := by
  rw [h.syncState, nextSyncState] at hs ⊢
  split
  · rfl
  next hn => exact absurd (if_neg hn) hs

/-- The mutated keys, of documents that are shown. -/
theorem Sound.marked_iff {documents : DocumentMap} (h : view.Sound documents)
    {doc : Document} (hd : doc ∈ view.documentSet.toList) :
    doc.key ∈ view.mutatedKeys ↔ doc.hasLocalMutations = true := by
  rw [h.marked.mutated, DocumentSet.mem_toList.mp hd]
  simp

/-- A view is synced if it is current and shows no document but those that the service has
and those with local mutations. -/
theorem Sound.syncState_iff {documents : DocumentMap} (h : view.Sound documents) :
    view.syncState = .synced ↔ view.current = true ∧
    ∀ doc ∈ view.documentSet.toList, doc.key ∈ view.syncedDocuments ∨ doc.hasLocalMutations = true := by
  have hsync : view.syncState = .synced ↔ view.limboDocuments.toList = [] ∧ view.current = true := by
    rw [h.syncState, nextSyncState]
    split
    next hc => simpa using hc
    next hc => simpa using hc
  rw [hsync, and_comm]
  refine and_congr_right fun hcur => ?_
  constructor
  · intro hnil doc hd
    have hnot : doc.key ∉ view.limboDocuments := by
      rw [SortedSet.mem_def, hnil]
      exact List.not_mem_nil
    rw [h.limbo hcur, shouldBeInLimbo_iff] at hnot
    by_contra hn
    obtain ⟨hkey, hloc⟩ := not_or.mp hn
    exact hnot ⟨hkey, doc, DocumentSet.mem_toList.mp hd, Bool.eq_false_iff.mpr hloc⟩
  · intro hall
    refine List.eq_nil_iff_forall_not_mem.mpr fun key hkey => ?_
    obtain ⟨hns, doc, hd, hloc⟩ := shouldBeInLimbo_iff.mp ((h.limbo hcur key).mp hkey)
    have hk := DocumentSet.getDocument_key hd
    rcases hall doc (DocumentSet.mem_toList.mpr (hk ▸ hd)) with hs | hs
    · exact hns (hk ▸ hs)
    · rw [hloc] at hs
      cases hs

end View

end BlindBoard.Firestore
