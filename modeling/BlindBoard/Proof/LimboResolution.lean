import BlindBoard.Lib.Run
import BlindBoard.Impl.SyncEngine
import BlindBoard.Proof.RandomAccessQueue

/-!
# Looking up documents in limbo

Between two steps (`Kept`) a sync engine looks each key up with one target, which the remote store
listens to, and with no more targets than it may; a key waits only while it has as
many (`Busy`). A key that is looked up or waits is `Pending`. What a step makes of
the pending keys and of the references (`Kept.step`) gives that no key is pending without
a reference, and that none is forgotten but those whose lookup was rejected.

All this needs that no key comes into limbo while the queue has a removed entry of it (`Fresh`):
otherwise the queue may lose the key, and its lookup goes on when no target refers to the key
any more (`lostKey`).
-/

namespace BlindBoard.Firestore

open Lib

/-! ## References -/

namespace ReferenceSet

variable {refs : ReferenceSet} {key key' : Path} {id id' : ℕ}

theorem mem_addReference : (key', id') ∈ refs.addReference key id ↔
    key' = key ∧ id' = id ∨ (key', id') ∈ refs :=
  SortedSet.mem_insert_iff.trans (or_congr_left Prod.mk_inj)

theorem mem_removeReference : (key', id') ∈ refs.removeReference key id ↔
    (key', id') ∈ refs ∧ ¬ (key' = key ∧ id' = id) :=
  SortedSet.mem_erase_iff.trans (and_congr_right fun _ => not_congr Prod.mk_inj)

theorem mem_referencedKeys : key ∈ refs.referencedKeys id ↔ (key, id) ∈ refs := by
  rw [referencedKeys, List.mem_map]
  constructor
  · rintro ⟨⟨key, id'⟩, h, rfl⟩
    obtain ⟨hm, hid⟩ := List.mem_filter.mp h
    obtain rfl : id' = id := of_decide_eq_true hid
    exact hm
  · intro h
    exact ⟨(key, id), List.mem_filter.mpr ⟨h, decide_eq_true rfl⟩, rfl⟩

theorem mem_removeReferences : (key, id') ∈ refs.removeReferences id ↔ (key, id') ∈ refs ∧ id' ≠ id := by
  have hmap : refs.removeReferences id = ((refs.referencedKeys id).map fun key =>
    (key, id)).foldl SortedSet.erase refs := by
    rw [List.foldl_map]
    rfl
  rw [hmap, SortedSet.mem_foldl_erase]
  refine and_congr_right fun h => not_congr ?_
  rw [List.mem_map]
  constructor
  · rintro ⟨k, -, he⟩
    exact (Prod.mk.inj he).2.symm
  · rintro rfl
    exact ⟨key, mem_referencedKeys.mpr h, rfl⟩

theorem containsKey_iff : refs.containsKey key = true ↔ ∃ id, (key, id) ∈ refs := by
  rw [containsKey, List.any_eq_true]
  constructor
  · rintro ⟨⟨key', id⟩, h, he⟩
    obtain rfl : key' = key := of_decide_eq_true he
    exact ⟨id, h⟩
  · rintro ⟨id, h⟩
    exact ⟨(key, id), h, decide_eq_true rfl⟩

end ReferenceSet

namespace SyncEngine

variable {s s' : SyncEngine} {key : Path}

/-- The key is looked up, or waits. -/
def Pending (s : SyncEngine) (key : Path) : Prop :=
  key ∈ s.enqueuedLimboResolutions.elements ∨ (s.activeLimboTargetsByKey.lookup key).isSome = true

/-- Some target refers to the key. -/
def Referenced (s : SyncEngine) (key : Path) : Prop := ∃ targetId, (key, targetId) ∈ s.limboDocumentRefs

/-- How the targets, the keys and the queue go together. -/
structure Kept (s : SyncEngine) : Prop where
  queue : s.enqueuedLimboResolutions.Clean
  target : Store.Inverse s.activeLimboTargetsByKey s.activeLimboResolutionsByTarget LimboResolution.key
  listening : ∀ id, id ∈ s.listenTargets ↔ (s.activeLimboResolutionsByTarget.lookup id).isSome = true
  nodup : s.listenTargets.Nodup
  ids : ∀ id ∈ s.listenTargets, id < s.nextId
  disjoint : ∀ key ∈ s.enqueuedLimboResolutions.elements, s.activeLimboTargetsByKey.lookup key = none
  bound : s.activeLimboTargetsByKey.keys.length ≤ s.maxConcurrentLimboResolutions

/-- A key waits only while as many keys are looked up as may be. -/
def Busy (s : SyncEngine) : Prop :=
  s.enqueuedLimboResolutions.elements ≠ [] → s.activeLimboTargetsByKey.keys.length =
    s.maxConcurrentLimboResolutions

/-! ## Starting lookups -/

/-- What has been done to an engine: the pending keys have become others, and nothing else has. -/
structure Tracks (pending : Path → Prop) (s s' : SyncEngine) : Prop where
  kept : s'.Kept
  busy : s'.Busy
  pending : ∀ key, s'.Pending key ↔ pending key
  refs : s'.limboDocumentRefs = s.limboDocumentRefs
  max : s'.maxConcurrentLimboResolutions = s.maxConcurrentLimboResolutions

/-- The first key of the queue is looked up. -/
theorem Kept.startLimboResolution (h : s.Kept) {enqueued : RandomAccessQueue Path}
    (hf : s.enqueuedLimboResolutions.front = some key)
    (hp : s.enqueuedLimboResolutions.popFront = some enqueued)
    (hlt : s.activeLimboTargetsByKey.keys.length < s.maxConcurrentLimboResolutions) :
    (s.startLimboResolution key enqueued).Kept ∧
      (∀ k, (s.startLimboResolution key enqueued).Pending k ↔ s.Pending k) ∧
      (s.startLimboResolution key enqueued).limboDocumentRefs = s.limboDocumentRefs ∧
      (s.startLimboResolution key enqueued).maxConcurrentLimboResolutions = s.maxConcurrentLimboResolutions ∧
      (s.startLimboResolution key enqueued).enqueuedLimboResolutions = enqueued := by
  have hel : s.enqueuedLimboResolutions.elements = key :: enqueued.elements := by
    rw [RandomAccessQueue.front_eq] at hf
    obtain ⟨rest, hr⟩ := List.head?_eq_some_iff.mp hf
    rw [RandomAccessQueue.elements_popFront hp, hr]
    rfl
  have hnone : s.activeLimboTargetsByKey.lookup key = none := h.disjoint key (hel ▸ List.mem_cons_self)
  have hnew : s.nextId ∉ s.listenTargets := fun hm => lt_irrefl _ (h.ids _ hm)
  have hfree : s.activeLimboResolutionsByTarget.lookup s.nextId = none :=
    Option.not_isSome_iff_eq_none.mp fun hs => hnew ((h.listening _).mpr hs)
  have hs : s.startLimboResolution key enqueued =
      { s with
        enqueuedLimboResolutions := enqueued
        activeLimboResolutionsByTarget := s.activeLimboResolutionsByTarget.insert s.nextId ⟨key, false⟩
        activeLimboTargetsByKey := s.activeLimboTargetsByKey.insert key s.nextId
        nextId := s.nextId + 2
        listenTargets := s.listenTargets ++ [s.nextId] } := by
    simp [SyncEngine.startLimboResolution, listen, hnew, hnone]
  rw [hs]
  have hnd : (key :: enqueued.elements).Nodup := hel ▸ h.queue.right.nodup
  have htarget : Store.Inverse (s.activeLimboTargetsByKey.insert key s.nextId)
      (s.activeLimboResolutionsByTarget.insert s.nextId ⟨key, false⟩) LimboResolution.key :=
    Store.Inverse.insert h.target (b := ⟨key, false⟩) hnone hfree
  refine ⟨⟨h.queue.popFront hp, htarget, fun id => ?_, ?_, fun id hid => ?_,
    fun k hk => ?_, (Store.length_keys_insert_le _ _ _).trans hlt⟩, fun k => ?_, rfl, rfl, rfl⟩
  · rw [List.mem_append, List.mem_singleton, h.listening, AList.lookup_isSome, AList.lookup_isSome,
      AList.mem_insert, or_comm]
  · refine List.nodup_append.mpr ⟨h.nodup, List.nodup_singleton _, fun a ha b hb => ?_⟩
    obtain rfl := List.mem_singleton.mp hb
    rintro rfl
    exact hnew ha
  · dsimp only at hid ⊢
    rcases List.mem_append.mp hid with hid | hid
    · exact (h.ids id hid).trans (by omega)
    · rw [List.mem_singleton.mp hid]
      omega
  · have hne : k ≠ key := by
      rintro rfl
      exact (List.nodup_cons.mp hnd).1 hk
    exact (AList.lookup_insert_ne hne).trans (h.disjoint k (hel ▸ List.mem_cons_of_mem _ hk))
  · unfold Pending
    rw [hel, List.mem_cons, AList.lookup_isSome, AList.lookup_isSome, AList.mem_insert]
    tauto

/-- Rounds of the loop start lookups of keys that wait; enough of them start as many as may be. -/
theorem pump_tracks (n : ℕ) (h : s.Kept) : (pump n s).Kept ∧ (∀ k, (pump n s).Pending k ↔ s.Pending k) ∧
    (pump n s).limboDocumentRefs = s.limboDocumentRefs ∧
    (pump n s).maxConcurrentLimboResolutions = s.maxConcurrentLimboResolutions ∧
    (s.enqueuedLimboResolutions.queue.length ≤ n → (pump n s).Busy) := by
  have idle (he : s.enqueuedLimboResolutions.elements = []) : s.Busy := fun hne => absurd he hne
  induction n generalizing s with
  | zero =>
    refine ⟨h, fun _ => Iff.rfl, rfl, rfl, fun hle => idle ?_⟩
    rw [RandomAccessQueue.elements, List.length_eq_zero_iff.mp (Nat.le_zero.mp hle)]
    rfl
  | succ n ih =>
    unfold pump
    split
    next hlt =>
      split
      next key enqueued hf hp =>
        obtain ⟨hk, hpend, hrefs, hmax, hq⟩ := h.startLimboResolution hf hp hlt
        obtain ⟨hk', hpend', hrefs', hmax', hbusy⟩ := ih hk fun he hne => absurd he hne
        refine ⟨hk', fun k => (hpend' k).trans (hpend k), hrefs'.trans hrefs,
          hmax'.trans hmax, fun hle => hbusy ?_⟩
        rw [hq]
        have := RandomAccessQueue.length_popFront hp
        omega
      next hno =>
        refine ⟨h, fun _ => Iff.rfl, rfl, rfl, fun _ => idle ?_⟩
        cases hp : s.enqueuedLimboResolutions.popFront with
        | none => exact RandomAccessQueue.popFront_none.mp hp
        | some enqueued =>
          cases hf : s.enqueuedLimboResolutions.front with
          | none => exact List.head?_eq_none_iff.mp ((RandomAccessQueue.front_eq _).symm.trans hf)
          | some key => exact absurd hp (hno key enqueued hf)
    next hge => exact ⟨h, fun _ => Iff.rfl, rfl, rfl, fun _ _ => le_antisymm h.bound (not_lt.mp hge)⟩

theorem Kept.pumpEnqueuedLimboResolutions (h : s.Kept) :
    Tracks s.Pending s s.pumpEnqueuedLimboResolutions := by
  obtain ⟨hk, hp, hr, hm, hb⟩ := pump_tracks s.enqueuedLimboResolutions.queue.length h
  exact ⟨hk, hb le_rfl, hp, hr, hm⟩

/-! ## Keys that come and go -/

/-- A key that comes into limbo is pending. -/
theorem Kept.trackLimboChange (h : s.Kept) (hb : s.Busy)
    (hf : ∀ entry ∈ s.enqueuedLimboResolutions.queue, entry.removed = true → entry.element ≠ key) :
    Tracks (fun k => s.Pending k ∨ k = key) s (s.trackLimboChange key) := by
  unfold SyncEngine.trackLimboChange
  split
  next ha =>
    refine ⟨h, hb, fun k => ⟨.inl, ?_⟩, rfl, rfl⟩
    rintro (hk | rfl)
    · exact hk
    · exact .inr ha
  next ha =>
    have hnone := Option.not_isSome_iff_eq_none.mp ha
    by_cases hc : s.enqueuedLimboResolutions.contains key = true
    · rw [show s.enqueuedLimboResolutions.pushBack key = (s.enqueuedLimboResolutions, false) from if_pos hc]
      refine ⟨h, hb, fun k => ⟨.inl, ?_⟩, rfl, rfl⟩
      rintro (hk | rfl)
      · exact hk
      · exact .inl (RandomAccessQueue.mem_of_contains hc)
    · have hadded : (s.enqueuedLimboResolutions.pushBack key).2 = true := by
        unfold RandomAccessQueue.pushBack
        rw [if_neg hc]
      have hel : (s.enqueuedLimboResolutions.pushBack key).1.elements =
        s.enqueuedLimboResolutions.elements ++ [key] := by
        rw [RandomAccessQueue.elements_pushBack h.queue.right,
          if_neg fun hm => hc (h.queue.right.contains_iff.mpr hm)]
      have h₁ : ({ s with
          enqueuedLimboResolutions := (s.enqueuedLimboResolutions.pushBack key).1 } : SyncEngine).Kept := by
        refine ⟨h.queue.pushBack hf, h.target, h.listening, h.nodup, h.ids, fun k hk => ?_, h.bound⟩
        dsimp only at hk
        rw [hel, List.mem_append, List.mem_singleton] at hk
        rcases hk with hk | rfl
        · exact h.disjoint k hk
        · exact hnone
      dsimp only
      rw [if_pos hadded]
      obtain ⟨hk, hb', hp, hr, hm⟩ := h₁.pumpEnqueuedLimboResolutions
      refine ⟨hk, hb', fun k => (hp k).trans ?_, hr, hm⟩
      unfold Pending
      dsimp only
      rw [hel, List.mem_append, List.mem_singleton]
      tauto

/-- A key whose lookup has ended is not pending. -/
theorem Kept.forget (h : s.Kept) {id : ℕ} (hl : s.activeLimboTargetsByKey.lookup key = some id) :
    ({ s with
        activeLimboTargetsByKey := s.activeLimboTargetsByKey.erase key
        activeLimboResolutionsByTarget := s.activeLimboResolutionsByTarget.erase id
        listenTargets := s.listenTargets.erase id } : SyncEngine).Kept ∧
      ∀ k, ({ s with
        activeLimboTargetsByKey := s.activeLimboTargetsByKey.erase key
        activeLimboResolutionsByTarget := s.activeLimboResolutionsByTarget.erase id
        listenTargets := s.listenTargets.erase id } : SyncEngine).Pending k ↔ s.Pending k ∧ k ≠ key := by
  have hq (k : Path) (hk : k ∈ s.enqueuedLimboResolutions.elements) : k ≠ key := by
    rintro rfl
    rw [h.disjoint k hk] at hl
    cases hl
  refine ⟨⟨h.queue, h.target.erase hl, fun i => ?_, h.nodup.erase id,
    fun i hi => h.ids i (List.mem_of_mem_erase hi),
    fun k hk => (AList.lookup_erase_ne (hq k hk)).trans (h.disjoint k hk),
    (Store.length_keys_erase_le _ _).trans h.bound⟩, fun k => ?_⟩
  · rw [h.nodup.mem_erase_iff, h.listening, AList.lookup_isSome, AList.lookup_isSome, AList.mem_erase]
  · unfold Pending
    rw [AList.lookup_isSome, AList.lookup_isSome, AList.mem_erase]
    have := hq k
    tauto

/-- A key that leaves limbo is not pending. -/
theorem Kept.removeLimboTarget (h : s.Kept) (hb : s.Busy) (key : Path) :
    ∃ s', s.removeLimboTarget key = some s' ∧ Tracks (fun k => s.Pending k ∧ k ≠ key) s s' := by
  have hq (k : Path) : k ∈ (s.enqueuedLimboResolutions.remove key).1.elements ↔
    k ≠ key ∧ k ∈ s.enqueuedLimboResolutions.elements :=
    RandomAccessQueue.mem_remove h.queue.right
  have h₁ : ({ s with
      enqueuedLimboResolutions := (s.enqueuedLimboResolutions.remove key).1 } : SyncEngine).Kept :=
    ⟨h.queue.remove, h.target, h.listening, h.nodup, h.ids,
      fun k hk => h.disjoint k ((hq k).mp hk).2, h.bound⟩
  unfold SyncEngine.removeLimboTarget
  dsimp only
  cases hl : s.activeLimboTargetsByKey.lookup key with
  | none =>
    refine ⟨_, rfl, h₁, fun hne => hb fun he => ?_, fun k => ?_, rfl, rfl⟩
    · obtain ⟨k, hk⟩ := List.exists_mem_of_ne_nil _ hne
      exact List.ne_nil_of_mem ((hq k).mp hk).2 he
    · unfold Pending
      dsimp only
      rw [hq]
      by_cases hk : k = key
      · subst hk
        simp [hl]
      · simp [hk]
  | some id =>
    have hin : id ∈ s.listenTargets := by
      obtain ⟨r, hr, -⟩ := (h.target key id).mp hl
      rw [h.listening, hr]
      rfl
    obtain ⟨hk, hp⟩ := h₁.forget hl
    obtain ⟨hk', hb', hp', hr, hm⟩ := hk.pumpEnqueuedLimboResolutions
    refine ⟨_, ?_, hk', hb', fun k => (hp' k).trans ((hp k).trans ?_), hr, hm⟩
    · simp only [stopListening, hin, if_true, Option.map_some]
    · unfold Pending
      dsimp only
      rw [hq]
      tauto

/-- Keys have lost references: those without any are no longer pending. -/
structure Released (keys : Path → Prop) (s s' : SyncEngine) : Prop where
  kept : s'.Kept
  busy : s'.Busy
  pending : ∀ key, s'.Pending key ↔ s.Pending key ∧ (keys key → s'.Referenced key)
  max : s'.maxConcurrentLimboResolutions = s.maxConcurrentLimboResolutions

theorem Kept.removeUnreferenced (h : s.Kept) (hb : s.Busy) (key : Path) :
    ∃ s', s.removeUnreferenced key = some s' ∧ s'.limboDocumentRefs = s.limboDocumentRefs ∧
    Released (fun k => k = key) s s' := by
  unfold SyncEngine.removeUnreferenced
  split
  next hc =>
    have hr : s.Referenced key := ReferenceSet.containsKey_iff.mp hc
    refine ⟨s, rfl, rfl, h, hb, fun k => (and_iff_left_of_imp ?_).symm, rfl⟩
    rintro - rfl
    exact hr
  next hc =>
    have hr : ¬ s.Referenced key := fun hr => hc (ReferenceSet.containsKey_iff.mpr hr)
    obtain ⟨s', hs, hk, hb', hp, hrefs, hm⟩ := h.removeLimboTarget hb key
    refine ⟨s', hs, hrefs, hk, hb', fun k => (hp k).trans (and_congr_right fun _ => ?_), hm⟩
    constructor
    · exact fun hne he => absurd he hne
    · rintro himp rfl
      have hr' := himp rfl
      rw [Referenced, hrefs] at hr'
      exact hr hr'

/-- Keys leave limbo, one after the other. -/
theorem Kept.removeAll (h : s.Kept) (hb : s.Busy) (keys : List Path) :
    ∃ s', keys.foldlM SyncEngine.removeUnreferenced s = some s' ∧ s'.limboDocumentRefs = s.limboDocumentRefs ∧
      Released (fun k => k ∈ keys) s s' := by
  induction keys generalizing s with
  | nil => exact ⟨s, rfl, rfl, h, hb, fun k => by simp, rfl⟩
  | cons key keys ih =>
    obtain ⟨s₁, hs₁, hr₁, hk₁, hb₁, hp₁, hm₁⟩ := h.removeUnreferenced hb key
    obtain ⟨s', hs', hr', hk', hb', hp', hm'⟩ := ih hk₁ hb₁
    have href (k : Path) : s₁.Referenced k ↔ s'.Referenced k := by
      rw [Referenced, Referenced, hr']
    refine ⟨s', ?_, hr'.trans hr₁, hk', hb', fun k => ?_, hm'.trans hm₁⟩
    · rw [List.foldlM_cons, hs₁]
      exact hs'
    · rw [hp', hp₁, href, List.mem_cons]
      tauto

/-! ## Steps -/

theorem Kept.handleRejectedListen (h : s.Kept) (hb : s.Busy) (targetId : ℕ) :
    ∃ pending : Path → Prop, Tracks pending s (s.handleRejectedListen targetId) ∧
      ∀ k, pending k → s.Pending k := by
  unfold SyncEngine.handleRejectedListen
  split
  next hin =>
    dsimp only
    cases hl : s.activeLimboResolutionsByTarget.lookup targetId with
    | none =>
      rw [h.listening, hl] at hin
      cases hin
    | some r =>
      obtain ⟨hk, hp⟩ := h.forget ((h.target r.key targetId).mpr ⟨r, hl, rfl⟩)
      obtain ⟨hk', hb', hp', hr, hm⟩ := hk.pumpEnqueuedLimboResolutions
      exact ⟨_, ⟨hk', hb', hp', hr, hm⟩, fun k hpk => ((hp k).mp hpk).1⟩
  next => exact ⟨_, ⟨h, hb, fun _ => Iff.rfl, rfl, rfl⟩, fun _ hk => hk⟩

/-- What the service says of a lookup is no end of it. -/
theorem Kept.applyRemoteEvent (h : s.Kept) (hb : s.Busy) {targetId : ℕ} {event : LimboEvent}
    (hs : s.applyRemoteEvent targetId event = some s') : Tracks s.Pending s s' := by
  have idle : Tracks s.Pending s s := ⟨h, hb, fun _ => Iff.rfl, rfl, rfl⟩
  unfold SyncEngine.applyRemoteEvent at hs
  split at hs
  · cases hs
    exact idle
  next r hr =>
    have received (documentReceived : Bool) : Tracks s.Pending s
        { s with
          activeLimboResolutionsByTarget :=
            s.activeLimboResolutionsByTarget.insert targetId { r with documentReceived } } := by
      refine ⟨⟨h.queue, h.target.replace hr rfl, fun id => ?_, h.nodup, h.ids, h.disjoint, h.bound⟩,
        hb, fun _ => Iff.rfl, rfl, rfl⟩
      rw [h.listening, AList.lookup_isSome, AList.lookup_isSome, AList.mem_insert]
      refine (or_iff_right_of_imp ?_).symm
      rintro rfl
      exact AList.lookup_isSome.mp (by rw [hr]; rfl)
    dsimp only at hs
    split at hs
    · cases hs
      exact received true
    · obtain ⟨-, hs⟩ := Option.ite_none_right_eq_some.mp hs
      cases hs
      exact idle
    · obtain ⟨-, hs⟩ := Option.ite_none_right_eq_some.mp hs
      cases hs
      exact received false
    · cases hs
      exact idle

/-- No removed entry of a key that comes into limbo is in the queue. -/
def Fresh (s : SyncEngine) : LimboAction → Prop
  | .updateTrackedLimboDocument (.added key) _ =>
    ∀ entry ∈ s.enqueuedLimboResolutions.queue, entry.removed = true → entry.element ≠ key
  | _ => True

instance (s : SyncEngine) : DecidablePred s.Fresh := fun a =>
  match a with
  | .updateTrackedLimboDocument (.added key) _ =>
    inferInstanceAs
      (Decidable (∀ entry ∈ s.enqueuedLimboResolutions.queue, entry.removed = true → entry.element ≠ key))
  | .updateTrackedLimboDocument (.removed _) _ | .removeAndCleanupTarget _ | .handleRejectedListen _
  | .applyRemoteEvent _ _ => isTrue trivial

/-- A lookup is rejected. -/
def Rejects : LimboAction → Prop
  | .handleRejectedListen _ => True
  | _ => False

/-- The references after a step. -/
def refsAfter (refs : ReferenceSet) : LimboAction → ReferenceSet
  | .updateTrackedLimboDocument (.added key) targetId => refs.addReference key targetId
  | .updateTrackedLimboDocument (.removed key) targetId => refs.removeReference key targetId
  | .removeAndCleanupTarget targetId => refs.removeReferences targetId
  | .handleRejectedListen _ | .applyRemoteEvent _ _ => refs

/-- What a step makes of the pending keys and of the references. -/
structure Stepped (a : LimboAction) (s s' : SyncEngine) : Prop where
  kept : s'.Kept
  busy : s'.Busy
  max : s'.maxConcurrentLimboResolutions = s.maxConcurrentLimboResolutions
  refs : s'.limboDocumentRefs = refsAfter s.limboDocumentRefs a
  referenced : ∀ key, (s.Pending key → s.Referenced key) → s'.Pending key → s'.Referenced key
  pending : ¬ Rejects a → ∀ key, (s.Referenced key → s.Pending key) → s'.Referenced key → s'.Pending key

/-- Keys that have lost references are released. -/
theorem Released.stepped {keys : Path → Prop} {a : LimboAction}
    (h : Released keys { s with limboDocumentRefs := refsAfter s.limboDocumentRefs a } s')
    (hr : s'.limboDocumentRefs = refsAfter s.limboDocumentRefs a)
    (hrefs : ∀ key id, (key, id) ∈ refsAfter s.limboDocumentRefs a → (key, id) ∈ s.limboDocumentRefs)
    (hkeys : ∀ key id, (key, id) ∈ s.limboDocumentRefs →
      (key, id) ∈ refsAfter s.limboDocumentRefs a ∨ keys key) :
    Stepped a s s' := by
  refine ⟨h.kept, h.busy, h.max, hr, fun key hold hp => ?_, fun _ key hold href => ?_⟩
  · obtain ⟨hp, hk⟩ := (h.pending key).mp hp
    obtain ⟨id, hid⟩ := hold hp
    rcases hkeys key id hid with hid | hkey
    · exact ⟨id, hr ▸ hid⟩
    · exact hk hkey
  · obtain ⟨id, hid⟩ := href
    exact (h.pending key).mpr ⟨hold ⟨id, hrefs key id (hr ▸ hid)⟩, fun _ => ⟨id, hid⟩⟩

theorem Kept.withRefs (h : s.Kept) (refs : ReferenceSet) :
    ({ s with limboDocumentRefs := refs } : SyncEngine).Kept :=
  ⟨h.queue, h.target, h.listening, h.nodup, h.ids, h.disjoint, h.bound⟩

/-- A step, where it does not fail. -/
theorem Kept.step (h : s.Kept) (hb : s.Busy) {a : LimboAction} (hf : s.Fresh a) (hs : s.step a = some s') :
    Stepped a s s' := by
  cases a with
  | updateTrackedLimboDocument limboChange targetId =>
    cases limboChange with
    | added key =>
      cases hs
      have hk := h.withRefs (s.limboDocumentRefs.addReference key targetId)
      have hfresh : ∀ entry ∈ s.enqueuedLimboResolutions.queue,
        entry.removed = true → entry.element ≠ key := hf
      have ht := hk.trackLimboChange hb hfresh
      refine ⟨ht.kept, ht.busy, ht.max, ht.refs, fun k hold hp => ?_, fun _ k hold href => ?_⟩
      · rw [Referenced, ht.refs]
        rcases (ht.pending k).mp hp with hp | rfl
        · obtain ⟨id, hid⟩ := hold hp
          exact ⟨id, ReferenceSet.mem_addReference.mpr (.inr hid)⟩
        · exact ⟨targetId, ReferenceSet.mem_addReference.mpr (.inl ⟨rfl, rfl⟩)⟩
      · rw [Referenced, ht.refs] at href
        obtain ⟨id, hid⟩ := href
        refine (ht.pending k).mpr ?_
        rcases ReferenceSet.mem_addReference.mp hid with ⟨hkey, -⟩ | hid
        · exact .inr hkey
        · exact .inl (hold ⟨id, hid⟩)
    | removed key =>
      have hk := h.withRefs (s.limboDocumentRefs.removeReference key targetId)
      obtain ⟨s₁, hs₁, hr, hrel⟩ := hk.removeUnreferenced hb key
      cases hs.symm.trans hs₁
      refine hrel.stepped hr (fun k id hid => (ReferenceSet.mem_removeReference.mp hid).1) fun k id hid => ?_
      by_cases hkey : k = key
      · exact .inr hkey
      · exact .inl (ReferenceSet.mem_removeReference.mpr ⟨hid, fun he => hkey he.1⟩)
  | removeAndCleanupTarget targetId =>
    have hk := h.withRefs (s.limboDocumentRefs.removeReferences targetId)
    obtain ⟨s₁, hs₁, hr, hrel⟩ := hk.removeAll hb (s.limboDocumentRefs.referencedKeys targetId)
    cases hs.symm.trans hs₁
    refine hrel.stepped hr (fun k id hid => (ReferenceSet.mem_removeReferences.mp hid).1) fun k id hid => ?_
    by_cases hid' : id = targetId
    · exact .inr (ReferenceSet.mem_referencedKeys.mpr (hid' ▸ hid))
    · exact .inl (ReferenceSet.mem_removeReferences.mpr ⟨hid, hid'⟩)
  | handleRejectedListen targetId =>
    cases hs
    obtain ⟨pending, ht, hp⟩ := h.handleRejectedListen hb targetId
    refine ⟨ht.kept, ht.busy, ht.max, ht.refs, fun k hold hpk => ?_, fun hn => absurd trivial hn⟩
    rw [Referenced, ht.refs]
    exact hold (hp k ((ht.pending k).mp hpk))
  | applyRemoteEvent targetId event =>
    have ht := h.applyRemoteEvent hb hs
    refine ⟨ht.kept, ht.busy, ht.max, ht.refs, fun k hold hpk => ?_, fun _ k hold href => ?_⟩
    · rw [Referenced, ht.refs]
      exact hold ((ht.pending k).mp hpk)
    · rw [Referenced, ht.refs] at href
      exact (ht.pending k).mpr (hold href)

/-- No assertion of the remote store fails: every target that it is to stop listening to
is one that it listens to. -/
theorem Kept.isSome_step (h : s.Kept) (hb : s.Busy) {a : LimboAction}
    (ha : ∀ id event, a ≠ .applyRemoteEvent id event) :
    (s.step a).isSome = true := by
  cases a with
  | updateTrackedLimboDocument limboChange targetId =>
    cases limboChange with
    | added key => rfl
    | removed key =>
      have hk := h.withRefs (s.limboDocumentRefs.removeReference key targetId)
      obtain ⟨s₁, hs₁, -⟩ := hk.removeUnreferenced hb key
      exact Option.isSome_iff_exists.mpr ⟨s₁, hs₁⟩
  | removeAndCleanupTarget targetId =>
    have hk := h.withRefs (s.limboDocumentRefs.removeReferences targetId)
    obtain ⟨s₁, hs₁, -⟩ := hk.removeAll hb (s.limboDocumentRefs.referencedKeys targetId)
    exact Option.isSome_iff_exists.mpr ⟨s₁, hs₁⟩
  | handleRejectedListen targetId => rfl
  | applyRemoteEvent targetId event => exact absurd rfl (ha targetId event)

theorem kept_new (max : ℕ) : (new max).Kept where
  queue := RandomAccessQueue.clean_new
  target key id := by
    refine iff_of_false (fun h => by cases h) ?_
    rintro ⟨_, h, -⟩
    cases h
  listening id := iff_of_false (fun h => by cases h) fun h => by cases h
  nodup := .nil
  ids id h := by cases h
  disjoint key h := by cases h
  bound := Nat.zero_le _

/-! ## What holds between two steps -/

/-- An engine with at most `max` lookups at once. -/
structure Sound (max : ℕ) (s : SyncEngine) : Prop where
  bound : s.activeLimboTargetsByKey.keys.length ≤ max
  /-- Keys wait only while as many are looked up as may be. -/
  full : s.enqueuedLimboResolutions.elements ≠ [] → s.activeLimboTargetsByKey.keys.length = max
  once : (s.enqueuedLimboResolutions.elements ++ s.activeLimboTargetsByKey.keys).Nodup
  target : ∀ key id, s.activeLimboTargetsByKey.lookup key = some id ↔
    ∃ r, s.activeLimboResolutionsByTarget.lookup id = some r ∧ r.key = key
  listening : ∀ id, id ∈ s.listenTargets ↔ (s.activeLimboResolutionsByTarget.lookup id).isSome = true
  nodup : s.listenTargets.Nodup
  referenced : ∀ key, s.Pending key → s.Referenced key

theorem Kept.sound (h : s.Kept) (hb : s.Busy) (hr : ∀ key, s.Pending key → s.Referenced key) :
    Sound s.maxConcurrentLimboResolutions s where
  bound := h.bound
  full := hb
  once := by
    refine List.nodup_append.mpr ⟨h.queue.right.nodup, s.activeLimboTargetsByKey.keys_nodup,
      fun key hq k hk => ?_⟩
    rintro rfl
    have := AList.lookup_isSome.mpr (AList.mem_keys.mpr hk)
    rw [h.disjoint key hq] at this
    cases this
  target := h.target
  listening := h.listening
  nodup := h.nodup
  referenced := hr

/-! ## A key that is lost -/

/-- Of one lookup at a time: `c` leaves the queue and comes back, and the queue loses it
when `b` comes to its front. -/
def lostKey : List LimboAction :=
  [.updateTrackedLimboDocument (.added ["board", "a"]) 2,
    .updateTrackedLimboDocument (.added ["board", "b"]) 2,
    .updateTrackedLimboDocument (.added ["board", "c"]) 2,
    .updateTrackedLimboDocument (.removed ["board", "c"]) 2,
    .updateTrackedLimboDocument (.added ["board", "c"]) 2,
    .updateTrackedLimboDocument (.removed ["board", "a"]) 2,
    .updateTrackedLimboDocument (.removed ["board", "c"]) 2,
    .updateTrackedLimboDocument (.removed ["board", "b"]) 2]

-- no target refers to `c` any more, and it is looked up
example : ∃ s, run step (new 1) lostKey = some s ∧ s.limboDocumentRefs.toList = [] ∧
    s.activeLimboTargetsByKey.keys = [["board", "c"]] ∧ s.listenTargets ≠ [] :=
  exists_run (by decide +kernel)

end SyncEngine

end BlindBoard.Firestore
