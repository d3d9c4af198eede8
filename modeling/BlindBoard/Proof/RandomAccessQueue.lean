import BlindBoard.Lib.Run
import BlindBoard.Impl.RandomAccessQueue

/-!
# What a random access queue holds

A queue is right (`Right`) if no element is in it twice, and the map has all of them. It is a list
then: elements are added at its end, and taken from its front or from within
(`Right.fifoStep`). A step makes it wrong exactly if it prunes a removed entry of an element that
has been pushed again, since that erases the element from the map (`right_step`). A
queue in which there is no such entry is `Clean`, and stays so as long as no
element is pushed of which it has a removed entry.
-/

namespace BlindBoard.Firestore.RandomAccessQueue

open Lib

variable {α : Type} {queue : List (QueueEntry α)} {x : α}

theorem mem_elementsOf :
    x ∈ elementsOf queue ↔ ∃ entry ∈ queue, entry.element = x ∧ entry.removed = false := by
  simp only [elementsOf, List.mem_map, List.mem_filter, Bool.not_eq_true']
  exact exists_congr fun entry => by tauto

theorem elementsOf_cons (entry : QueueEntry α) :
    elementsOf (entry :: queue) =
      if entry.removed then elementsOf queue else entry.element :: elementsOf queue := by
  cases h : entry.removed <;> simp [elementsOf, h]

/-- Entries that have been removed are no elements. -/
theorem elementsOf_dropWhile : elementsOf (queue.dropWhile QueueEntry.removed) = elementsOf queue := by
  induction queue with
  | nil => rfl
  | cons entry queue ih =>
    cases h : entry.removed with
    | true => rw [List.dropWhile_cons_of_pos h, ih, elementsOf_cons, if_pos h]
    | false => rw [List.dropWhile_cons_of_neg (by simp [h])]

variable [DecidableEq α] {q q' : RandomAccessQueue α}

/-- The queue is a list without duplicates, and `contains` says what is in it. -/
structure Right (q : RandomAccessQueue α) : Prop where
  nodup : q.elements.Nodup
  contains : ∀ element ∈ q.elements, q.contains element = true

instance (q : RandomAccessQueue α) : Decidable q.Right :=
  decidable_of_iff (q.elements.Nodup ∧ ∀ element ∈ q.elements, q.contains element = true)
    ⟨fun h => ⟨h.1, h.2⟩, fun h => ⟨h.1, h.2⟩⟩

inductive QueueAction (α : Type) where
  | pushBack (element : α)
  | popFront
  | remove (element : α)

def step (q : RandomAccessQueue α) : QueueAction α → Option (RandomAccessQueue α)
  | .pushBack element => some (q.pushBack element).1
  | .popFront => q.popFront
  | .remove element => some (q.remove element).1

/-- The same of a list. -/
def fifoStep (elements : List α) : QueueAction α → Option (List α)
  | .pushBack element => some (if element ∈ elements then elements else elements ++ [element])
  | .popFront => if elements = [] then none else some elements.tail
  | .remove element => some (elements.erase element)

/-- The deque that a step prunes. -/
def unpruned (q : RandomAccessQueue α) : QueueAction α → List (QueueEntry α)
  | .pushBack _ => q.queue
  | .popFront => q.queue.tail
  | .remove element =>
    match q.queueEntriesByElement.lookup element with
    | some address => q.queue.map (QueueEntry.setRemoved address)
    | none => q.queue

theorem unpruned_none (hl : q.queueEntriesByElement.lookup x = none) : q.unpruned (.remove x) = q.queue := by
  simp only [unpruned, hl]

theorem unpruned_some {address : ℕ} (hl : q.queueEntriesByElement.lookup x = some address) :
    q.unpruned (.remove x) = q.queue.map (QueueEntry.setRemoved address) := by
  simp only [unpruned, hl]

/-- No entry that the step prunes is of an element that is in the queue again. -/
def Keeps (q : RandomAccessQueue α) (a : QueueAction α) : Prop :=
  ∀ element ∈ ((q.unpruned a).takeWhile QueueEntry.removed).map QueueEntry.element,
    element ∉ elementsOf (q.unpruned a)

instance (q : RandomAccessQueue α) : DecidablePred q.Keeps := fun a =>
  inferInstanceAs
    (Decidable (∀ element ∈ ((q.unpruned a).takeWhile QueueEntry.removed).map QueueEntry.element,
      element ∉ elementsOf (q.unpruned a)))

/-! ## What is in a queue -/

theorem takeWhile_queue (q : RandomAccessQueue α) : q.queue.takeWhile QueueEntry.removed = [] := by
  cases hq : q.queue with
  | nil => rfl
  | cons entry queue =>
    have h := q.front_removed entry (by rw [hq]; rfl)
    exact List.takeWhile_cons_of_neg (by simp [h])

/-- The elements, from the front entry on. -/
theorem elements_cons {entry : QueueEntry α} (hq : q.queue = entry :: queue) :
    q.elements = entry.element :: elementsOf queue := by
  have h := q.front_removed entry (by rw [hq]; rfl)
  rw [elements, hq, elementsOf_cons, h]
  rfl

theorem front_eq (q : RandomAccessQueue α) : q.front = q.elements.head? := by
  cases hq : q.queue with
  | nil => simp [front, elements, elementsOf, hq]
  | cons entry queue => rw [elements_cons hq, front, hq]; rfl

theorem mem_of_contains (h : q.contains x = true) : x ∈ q.elements := by
  obtain ⟨address, ha⟩ := Option.isSome_iff_exists.mp h
  obtain ⟨entry, he, -, hx, hr⟩ := q.pointers x address ha
  exact mem_elementsOf.mpr ⟨entry, he, hx, hr⟩

theorem Right.contains_iff (h : q.Right) : q.contains x = true ↔ x ∈ q.elements :=
  ⟨mem_of_contains, h.contains x⟩

/-! ## Steps -/

theorem elements_pruned {entries : Store α ℕ} {nextAddress : ℕ}
    (hf : ∀ entry ∈ queue, entry.address < nextAddress)
    (hn : (queue.map QueueEntry.address).Nodup)
    (hp : ∀ element address, entries.lookup element = some address →
      ∃ entry ∈ queue, entry.address = address ∧ entry.element = element ∧ entry.removed = false) :
    (pruned queue entries nextAddress hf hn hp).elements = elementsOf queue := by
  show elementsOf (prune queue entries).1 = _
  rw [prune_eq, elementsOf_dropWhile]

/-- A queue is right after pruning if nothing is pruned that is in it. -/
theorem right_pruned {entries : Store α ℕ} {nextAddress : ℕ}
    (hf : ∀ entry ∈ queue, entry.address < nextAddress)
    (hn : (queue.map QueueEntry.address).Nodup)
    (hp : ∀ element address, entries.lookup element = some address →
      ∃ entry ∈ queue, entry.address = address ∧ entry.element = element ∧ entry.removed = false)
    (hd : (elementsOf queue).Nodup)
    (hc : ∀ element ∈ elementsOf queue, (entries.lookup element).isSome = true) :
    (pruned queue entries nextAddress hf hn hp).Right ↔
      ∀ element ∈ (queue.takeWhile QueueEntry.removed).map QueueEntry.element,
        element ∉ elementsOf queue := by
  have hcontains (element : α) : (pruned queue entries nextAddress hf hn hp).contains element = true ↔
      element ∉ (queue.takeWhile QueueEntry.removed).map QueueEntry.element ∧
        (entries.lookup element).isSome = true := by
    show ((prune queue entries).2.lookup element).isSome = true ↔ _
    rw [prune_eq, Option.isSome_iff_exists, Option.isSome_iff_exists]
    simp only [lookup_foldl_erase, exists_and_left]
  constructor
  · intro h element hdrop hmem
    exact ((hcontains element).mp (h.contains element (elements_pruned hf hn hp ▸ hmem))).1 hdrop
  · intro h
    refine ⟨elements_pruned hf hn hp ▸ hd, fun element hmem => ?_⟩
    rw [elements_pruned] at hmem
    exact (hcontains element).mpr ⟨fun hdrop => h element hdrop hmem, hc element hmem⟩

theorem elements_pushBack (h : q.Right) :
    (q.pushBack x).1.elements = if x ∈ q.elements then q.elements else q.elements ++ [x] := by
  unfold pushBack
  by_cases hc : q.contains x = true
  · rw [if_pos hc, if_pos (h.contains_iff.mp hc)]
  · rw [if_neg hc, if_neg (fun hm => hc (h.contains_iff.mpr hm))]
    simp [elements, elementsOf]

theorem right_pushBack (h : q.Right) : (q.pushBack x).1.Right := by
  refine ⟨?_, fun element hm => ?_⟩
  · rw [elements_pushBack h]
    split
    · exact h.nodup
    next hx =>
      refine List.nodup_append.mpr ⟨h.nodup, List.nodup_singleton x, fun a ha b hb => ?_⟩
      obtain rfl := List.mem_singleton.mp hb
      exact fun he => hx (he ▸ ha)
  · rw [elements_pushBack h] at hm
    unfold pushBack
    split
    next hc =>
      rw [if_pos (h.contains_iff.mp hc)] at hm
      exact h.contains element hm
    next hc =>
      rw [if_neg fun hx => hc (h.contains_iff.mpr hx)] at hm
      show ((q.queueEntriesByElement.insert x q.nextAddress).lookup element).isSome = true
      by_cases he : element = x
      · rw [he, AList.lookup_insert]
        rfl
      · rw [AList.lookup_insert_ne he]
        exact h.contains element ((List.mem_append.mp hm).resolve_right fun hs =>
          he (List.mem_singleton.mp hs))

theorem popFront_none : q.popFront = none ↔ q.elements = [] := by
  unfold popFront
  split
  next hq => simp [elements, elementsOf, hq]
  next hq => simp [elements_cons hq]

theorem elements_popFront (h : q.popFront = some q') : q'.elements = q.elements.tail := by
  unfold popFront at h
  split at h
  · cases h
  next hq =>
    cases h
    rw [elements_pruned, elements_cons hq, List.tail_cons]

/-- A step takes an entry from the deque. -/
theorem length_popFront (h : q.popFront = some q') : q'.queue.length < q.queue.length := by
  unfold popFront at h
  split at h
  · cases h
  next entry queue hq =>
    cases h
    show (prune queue (q.queueEntriesByElement.erase entry.element)).1.length < q.queue.length
    rw [prune_eq, hq, List.length_cons]
    exact Nat.lt_succ_of_le (List.dropWhile_suffix _).length_le

theorem right_popFront (h : q.Right) (hs : q.popFront = some q') : q'.Right ↔ q.Keeps .popFront := by
  unfold popFront at hs
  split at hs
  · cases hs
  next entry queue hq =>
    cases hs
    obtain ⟨hentry, hnodup⟩ := List.nodup_cons.mp (elements_cons hq ▸ h.nodup)
    rw [right_pruned _ _ _ hnodup]
    · unfold Keeps unpruned
      rw [hq]
      rfl
    · intro element hm
      have hne : element ≠ entry.element := by
        rintro rfl
        exact hentry hm
      rw [AList.lookup_erase_ne hne]
      exact h.contains element (elements_cons hq ▸ List.mem_cons_of_mem _ hm)

/-- With the entry of an element marked as removed, the others are left. -/
theorem elementsOf_setRemoved (h : q.Right) {address : ℕ}
    (hl : q.queueEntriesByElement.lookup x = some address) :
    elementsOf (q.queue.map (QueueEntry.setRemoved address)) = q.elements.erase x := by
  obtain ⟨e, he, ha, hx, hr⟩ := q.pointers x address hl
  rw [h.nodup.erase_eq_filter, elements, elementsOf, elementsOf, List.filter_map,
    List.filter_map, List.map_map, List.filter_filter]
  have hsame : QueueEntry.element ∘ QueueEntry.setRemoved address =
    (QueueEntry.element : QueueEntry α → α) := by
    funext entry
    unfold Function.comp QueueEntry.setRemoved
    split <;> rfl
  rw [hsame]
  refine congrArg _ (List.filter_congr fun entry hentry => ?_)
  -- of the entries that are not removed, that at the address is the element's
  have hiff (hr' : entry.removed = false) : entry.address = address ↔ entry.element = x := by
    constructor
    · intro ha'
      rw [List.inj_on_of_nodup_map q.nodup hentry he (ha'.trans ha.symm)]
      exact hx
    · intro hx'
      have hin : entry ∈ q.queue.filter fun entry => !entry.removed :=
        List.mem_filter.mpr ⟨hentry, by simp [hr']⟩
      have hin' : e ∈ q.queue.filter fun entry => !entry.removed := List.mem_filter.mpr ⟨he, by simp [hr]⟩
      rw [List.inj_on_of_nodup_map h.nodup hin hin' (hx'.trans hx.symm)]
      exact ha
  unfold Function.comp QueueEntry.setRemoved
  cases hr' : entry.removed with
  | true => split <;> simp [hr']
  | false =>
    by_cases ha' : entry.address = address
    · simp [ha', (hiff hr').mp ha']
    · simp [ha', hr', mt (hiff hr').mpr ha']

theorem elements_remove (h : q.Right) : (q.remove x).1.elements = q.elements.erase x := by
  unfold remove
  split
  next hl =>
    refine (List.erase_of_not_mem fun hm => ?_).symm
    have := h.contains x hm
    rw [contains, hl] at this
    cases this
  next hl => rw [elements_pruned, elementsOf_setRemoved h hl]

theorem mem_remove (h : q.Right) {y : α} : y ∈ (q.remove x).1.elements ↔ y ≠ x ∧ y ∈ q.elements := by
  rw [elements_remove h, h.nodup.mem_erase_iff]

theorem right_remove (h : q.Right) : (q.remove x).1.Right ↔ q.Keeps (.remove x) := by
  unfold remove
  split
  next hl =>
    refine iff_of_true h ?_
    rw [Keeps, unpruned_none hl, takeWhile_queue]
    intro _ hm
    cases hm
  next address hl =>
    have he := elementsOf_setRemoved h hl
    rw [right_pruned _ _ _ (he ▸ h.nodup.erase x)]
    · rw [Keeps, unpruned_some hl]
    · intro element hm
      rw [he, h.nodup.mem_erase_iff] at hm
      rw [AList.lookup_erase_ne hm.1]
      exact h.contains element hm.2

/-- A step keeps a queue right exactly if it prunes no entry of an element that is in the queue. -/
theorem right_step {a : QueueAction α} (h : q.Right) (hs : q.step a = some q') : q'.Right ↔ q.Keeps a := by
  cases a with
  | pushBack x =>
    cases hs
    refine iff_of_true (right_pushBack h) ?_
    unfold Keeps unpruned
    dsimp only
    rw [takeWhile_queue]
    intro _ hm
    cases hm
  | popFront => exact right_popFront h hs
  | remove x =>
    cases hs
    exact right_remove h

/-- A right queue takes the steps of the list of its elements. -/
theorem Right.fifoStep {a : QueueAction α} (h : q.Right) (hs : q.step a = some q') :
    fifoStep q.elements a = some q'.elements := by
  cases a with
  | pushBack x =>
    cases hs
    exact congrArg some (elements_pushBack h).symm
  | popFront =>
    have hne : q.elements ≠ [] := by
      intro he
      rw [show q.step .popFront = none from popFront_none.mpr he] at hs
      cases hs
    exact (if_neg hne).trans (congrArg some (elements_popFront hs).symm)
  | remove x =>
    cases hs
    exact congrArg some (elements_remove h).symm

/-! ## Queues without stale entries -/

/-- The queue is right, and has no removed entry of an element that is in it. -/
structure Clean (q : RandomAccessQueue α) : Prop where
  right : q.Right
  gone : ∀ entry ∈ q.queue, entry.removed = true → entry.element ∉ q.elements

theorem clean_new : (new : RandomAccessQueue α).Clean :=
  ⟨⟨.nil, fun _ h => by cases h⟩, fun _ h => by cases h⟩

theorem clean_pruned {entries : Store α ℕ} {nextAddress : ℕ}
    (hf : ∀ entry ∈ queue, entry.address < nextAddress)
    (hn : (queue.map QueueEntry.address).Nodup)
    (hp : ∀ element address, entries.lookup element = some address →
      ∃ entry ∈ queue, entry.address = address ∧ entry.element = element ∧ entry.removed = false)
    (hd : (elementsOf queue).Nodup)
    (hc : ∀ element ∈ elementsOf queue, (entries.lookup element).isSome = true)
    (hg : ∀ entry ∈ queue, entry.removed = true → entry.element ∉ elementsOf queue) :
    (pruned queue entries nextAddress hf hn hp).Clean := by
  refine ⟨(right_pruned hf hn hp hd hc).mpr fun element hm => ?_, fun entry he hr => ?_⟩
  · obtain ⟨entry, he, rfl⟩ := List.mem_map.mp hm
    exact hg entry (List.takeWhile_subset _ he) (List.mem_takeWhile_imp he)
  · rw [elements_pruned]
    refine hg entry ?_ hr
    have hq : (pruned queue entries nextAddress hf hn hp).queue = queue.dropWhile QueueEntry.removed := by
      show (prune queue entries).1 = _
      rw [prune_eq]
    rw [hq] at he
    exact (List.dropWhile_suffix _).subset he

theorem Clean.pushBack (h : q.Clean) (hx : ∀ entry ∈ q.queue, entry.removed = true → entry.element ≠ x) :
    (q.pushBack x).1.Clean := by
  refine ⟨right_pushBack h.right, fun entry he hr => ?_⟩
  rw [elements_pushBack h.right]
  unfold RandomAccessQueue.pushBack at he
  split at he
  next hc =>
    rw [if_pos (h.right.contains_iff.mp hc)]
    exact h.gone entry he hr
  next hc =>
    rw [if_neg fun hm => hc (h.right.contains_iff.mpr hm), List.mem_append, List.mem_singleton]
    rcases List.mem_append.mp he with he | he
    · exact not_or.mpr ⟨h.gone entry he hr, hx entry he hr⟩
    · obtain rfl := List.mem_singleton.mp he
      cases hr

theorem Clean.popFront (h : q.Clean) (hs : q.popFront = some q') : q'.Clean := by
  unfold RandomAccessQueue.popFront at hs
  split at hs
  · cases hs
  next entry queue hq =>
    cases hs
    have hcons := elements_cons hq
    obtain ⟨hentry, hnodup⟩ := List.nodup_cons.mp (hcons ▸ h.right.nodup)
    refine clean_pruned _ _ _ hnodup (fun element hm => ?_) fun e he hr hm => ?_
    · have hne : element ≠ entry.element := by
        rintro rfl
        exact hentry hm
      rw [AList.lookup_erase_ne hne]
      exact h.right.contains element (hcons ▸ List.mem_cons_of_mem _ hm)
    · exact h.gone e (hq ▸ List.mem_cons_of_mem _ he) hr (hcons ▸ List.mem_cons_of_mem _ hm)

theorem Clean.remove (h : q.Clean) : (q.remove x).1.Clean := by
  unfold RandomAccessQueue.remove
  split
  · exact h
  next address hl =>
    have he := elementsOf_setRemoved h.right hl
    have hnodup : (elementsOf (q.queue.map (QueueEntry.setRemoved address))).Nodup :=
      he ▸ h.right.nodup.erase x
    dsimp only
    refine clean_pruned _ _ _ hnodup (fun element hm => ?_) fun entry hm hr => ?_
    · rw [he, h.right.nodup.mem_erase_iff] at hm
      rw [AList.lookup_erase_ne hm.1]
      exact h.right.contains element hm.2
    · rw [he, h.right.nodup.mem_erase_iff]
      rintro ⟨hne, hin⟩
      obtain ⟨e, hmem, rfl⟩ := List.mem_map.mp hm
      unfold QueueEntry.setRemoved at hne hin hr
      split at hne
      next ha =>
        -- the entry that has just been marked is the element's
        obtain ⟨e', he', ha', hx', -⟩ := q.pointers x address hl
        exact hne (List.inj_on_of_nodup_map q.nodup hmem he' (ha.trans ha'.symm) ▸ hx')
      next ha =>
        rw [if_neg ha] at hin hr
        exact h.gone e hmem hr hin

/-! ## Runs -/

theorem right_new : (new : RandomAccessQueue α).Right := ⟨.nil, fun _ h => by cases h⟩

/-- All along a run a queue is right exactly if no step prunes an entry of an element that
is in it; and its elements are then those of a list that takes the same steps. -/
theorem queue_right_iff {as : List (QueueAction α)} (hr : run step new as = some q) :
    ((∀ bs q₁, bs <+: as → run step new bs = some q₁ → q₁.Right) ↔ Runs step Keeps new as q) ∧
      (Runs step Keeps new as q → run fifoStep [] as = some q.elements) := by
  refine ⟨runs_iff_inv (fun q a q' h hs => right_step h hs) right_new hr, fun h => ?_⟩
  suffices hI : q.Right ∧ run RandomAccessQueue.fifoStep [] as = some q.elements from hI.2
  clear hr
  induction h with
  | nil => exact ⟨right_new, rfl⟩
  | snoc _ hk hs ih =>
    refine ⟨(right_step ih.1 hs).mpr hk, ?_⟩
    rw [run_append, ih.2]
    simp [ih.1.fifoStep hs]

/-- An element that is behind another is removed and pushed again before its removed entry
is at the front. -/
def pushedAgain : List (QueueAction ℕ) := [.pushBack 1, .pushBack 2, .remove 2, .pushBack 2, .popFront]

/-- The element is in the queue then, and the map has lost it. -/
theorem queue_right_pushedAgain : ∃ q, run step new pushedAgain = some q ∧ q.elements = [2] ∧
    q.contains 2 = false ∧
    ((∀ bs q₁, bs <+: pushedAgain → run step new bs = some q₁ → q₁.Right) ↔
      Runs step Keeps new pushedAgain q) ∧
    (Runs step Keeps new pushedAgain q → run fifoStep [] pushedAgain = some q.elements) := by
  obtain ⟨q, hr, hel, hc⟩ : ∃ q, run step new pushedAgain = some q ∧
      q.elements = [2] ∧ q.contains 2 = false := exists_run (by decide +kernel)
  exact ⟨q, hr, hel, hc, queue_right_iff hr⟩

end BlindBoard.Firestore.RandomAccessQueue
