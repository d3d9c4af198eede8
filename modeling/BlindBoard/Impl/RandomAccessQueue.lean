import Mathlib.Data.List.TakeWhile
import BlindBoard.Lib.Store

/-!
# The random access queue of the Firestore client

`RandomAccessQueue` (Firestore/core/src/util) is a queue from which any element can be
taken: its entry is marked as removed, and dropped once it comes to the front. A map
leads from an element to the address of its entry in the deque.

What holds of every queue is part of it: entries have addresses of their own, the map leads
to entries that are not removed, and the front entry is none that is.
-/

namespace BlindBoard.Firestore

open Lib

structure QueueEntry (α : Type) where
  address : ℕ
  element : α
  removed : Bool

/-- `set_removed` through a pointer to the entry at the address. -/
def QueueEntry.setRemoved {α : Type} (address : ℕ) (entry : QueueEntry α) : QueueEntry α :=
  if entry.address = address then { entry with removed := true } else entry

structure RandomAccessQueue (α : Type) [DecidableEq α] where
  queue : List (QueueEntry α)
  queueEntriesByElement : Store α ℕ
  /-- The address of the next entry. -/
  nextAddress : ℕ
  fresh : ∀ entry ∈ queue, entry.address < nextAddress
  nodup : (queue.map QueueEntry.address).Nodup
  pointers : ∀ element address, queueEntriesByElement.lookup element = some address →
    ∃ entry ∈ queue, entry.address = address ∧ entry.element = element ∧ entry.removed = false
  front_removed : ∀ entry, queue.head? = some entry → entry.removed = false

namespace RandomAccessQueue

variable {α : Type} [DecidableEq α]

def new : RandomAccessQueue α where
  queue := []
  queueEntriesByElement := ∅
  nextAddress := 0
  fresh _ h := by cases h
  nodup := .nil
  pointers _ _ h := by cases h
  front_removed _ h := by cases h

/-- The elements of a deque. -/
def elementsOf (queue : List (QueueEntry α)) : List α :=
  (queue.filter fun entry => !entry.removed).map QueueEntry.element

def elements (q : RandomAccessQueue α) : List α := elementsOf q.queue

def contains (q : RandomAccessQueue α) (element : α) : Bool := (q.queueEntriesByElement.lookup element).isSome

/-- `front`, of a queue that is not empty. -/
def front (q : RandomAccessQueue α) : Option α := q.queue.head?.map QueueEntry.element

/-- `push_back`: the queue, and whether the element was added. -/
def pushBack (q : RandomAccessQueue α) (element : α) : RandomAccessQueue α × Bool :=
  if q.contains element then (q, false)
  else
    ({ queue := q.queue ++ [⟨q.nextAddress, element, false⟩]
       queueEntriesByElement := q.queueEntriesByElement.insert element q.nextAddress
       nextAddress := q.nextAddress + 1
       fresh := by
         intro entry h
         rcases List.mem_append.mp h with h | h
         · exact Nat.lt_succ_of_lt (q.fresh entry h)
         · obtain rfl := List.mem_singleton.mp h
           exact Nat.lt_succ_self _
       nodup := by
         rw [List.map_append, List.nodup_append]
         refine ⟨q.nodup, List.nodup_singleton _, fun a ha b hb => ?_⟩
         obtain ⟨entry, he, rfl⟩ := List.mem_map.mp ha
         obtain rfl := List.mem_singleton.mp hb
         exact (q.fresh entry he).ne
       pointers := by
         intro x a h
         by_cases hx : x = element
         · subst hx
           rw [AList.lookup_insert] at h
           cases h
           exact ⟨_, List.mem_append_right _ (List.mem_singleton_self _), rfl, rfl, rfl⟩
         · rw [AList.lookup_insert_ne hx] at h
           obtain ⟨entry, he, h⟩ := q.pointers x a h
           exact ⟨entry, List.mem_append_left _ he, h⟩
       front_removed := by
         intro entry h
         cases hq : q.queue with
         | nil =>
           rw [hq] at h
           cases h
           rfl
         | cons e queue =>
           rw [hq] at h
           exact q.front_removed entry (by rw [hq]; exact h) }, true)

/-- `PruneLeadingQueueEntries`: the element of an entry that is dropped is erased from the map. -/
def prune : List (QueueEntry α) → Store α ℕ → List (QueueEntry α) × Store α ℕ
  | [], entries => ([], entries)
  | entry :: queue, entries =>
    if entry.removed then prune queue (entries.erase entry.element) else (entry :: queue, entries)

theorem prune_eq (queue : List (QueueEntry α)) (entries : Store α ℕ) : prune queue entries =
    (queue.dropWhile QueueEntry.removed,
      (queue.takeWhile QueueEntry.removed).foldl
        (fun entries entry => entries.erase entry.element) entries) := by
  induction queue generalizing entries with
  | nil => rfl
  | cons entry queue ih =>
    rw [prune]
    split
    next h => rw [ih, List.dropWhile_cons_of_pos h, List.takeWhile_cons_of_pos h, List.foldl_cons]
    next h => rw [List.dropWhile_cons_of_neg h, List.takeWhile_cons_of_neg h, List.foldl_nil]

theorem lookup_foldl_erase {entries : Store α ℕ} {dropped : List (QueueEntry α)} {element : α} {address : ℕ} :
    (dropped.foldl (fun entries entry => entries.erase entry.element) entries).lookup element = some address ↔
      element ∉ dropped.map QueueEntry.element ∧ entries.lookup element = some address := by
  induction dropped generalizing entries with
  | nil => simp
  | cons entry dropped ih =>
    rw [List.foldl_cons, ih, List.map_cons, List.mem_cons]
    by_cases he : element = entry.element
    · rw [he, AList.lookup_erase]
      simp
    · rw [AList.lookup_erase_ne he]
      simp [he]

/-- A queue whose deque is pruned. -/
def pruned (queue : List (QueueEntry α)) (entries : Store α ℕ) (nextAddress : ℕ)
    (fresh : ∀ entry ∈ queue, entry.address < nextAddress)
    (nodup : (queue.map QueueEntry.address).Nodup)
    (pointers : ∀ element address, entries.lookup element = some address →
      ∃ entry ∈ queue, entry.address = address ∧ entry.element = element ∧
      entry.removed = false) : RandomAccessQueue α where
  queue := (prune queue entries).1
  queueEntriesByElement := (prune queue entries).2
  nextAddress
  fresh := by
    rw [prune_eq]
    exact fun entry h => fresh entry ((List.dropWhile_suffix _).subset h)
  nodup := by
    rw [prune_eq]
    exact nodup.sublist ((List.dropWhile_suffix _).sublist.map _)
  pointers := by
    rw [prune_eq]
    intro element address h
    dsimp only at h ⊢
    rw [lookup_foldl_erase] at h
    obtain ⟨entry, he, ha, hx, hr⟩ := pointers element address h.2
    refine ⟨entry, ?_, ha, hx, hr⟩
    rw [← List.takeWhile_append_dropWhile (p := QueueEntry.removed) (l := queue), List.mem_append] at he
    refine he.resolve_left fun ht => ?_
    have := List.mem_takeWhile_imp ht
    rw [hr] at this
    cases this
  front_removed := by
    rw [prune_eq]
    intro entry h
    have := List.head?_dropWhile_not QueueEntry.removed queue
    dsimp only at h
    rw [h] at this
    simpa using this

/-- `pop_front`, which is undefined for an empty queue. -/
def popFront (q : RandomAccessQueue α) : Option (RandomAccessQueue α) :=
  match hq : q.queue with
  | [] => none
  | entry :: queue =>
    some (pruned queue (q.queueEntriesByElement.erase entry.element) q.nextAddress
      (fun e he => q.fresh e (hq ▸ List.mem_cons_of_mem _ he))
      (by
        have h := q.nodup
        rw [hq] at h
        exact (List.nodup_cons.mp h).2)
      (fun x a h => by
        by_cases hx : x = entry.element
        · rw [hx, AList.lookup_erase] at h
          cases h
        · rw [AList.lookup_erase_ne hx] at h
          obtain ⟨e, he, ha, he', hr⟩ := q.pointers x a h
          rw [hq] at he
          refine ⟨e, (List.mem_cons.mp he).resolve_left fun h => hx ?_, ha, he', hr⟩
          rw [← he', h]))

/-- `remove`: the queue, and whether the element was found. -/
def remove (q : RandomAccessQueue α) (element : α) : RandomAccessQueue α × Bool :=
  match hl : q.queueEntriesByElement.lookup element with
  | none => (q, false)
  | some address =>
    (pruned (q.queue.map (QueueEntry.setRemoved address))
      (q.queueEntriesByElement.erase element) q.nextAddress
      (fun e he => by
        obtain ⟨e₁, he₁, rfl⟩ := List.mem_map.mp he
        unfold QueueEntry.setRemoved
        split <;> exact q.fresh e₁ he₁)
      (by
        rw [List.map_map]
        have h : QueueEntry.address ∘ QueueEntry.setRemoved address =
          (QueueEntry.address : QueueEntry α → ℕ) := by
          funext e
          unfold Function.comp QueueEntry.setRemoved
          split <;> rfl
        rw [h]
        exact q.nodup)
      (fun x a h => by
        by_cases hx : x = element
        · rw [hx, AList.lookup_erase] at h
          cases h
        · rw [AList.lookup_erase_ne hx] at h
          obtain ⟨e, he, ha, he', hr⟩ := q.pointers x a h
          -- the entry of another element is at another address
          have hne : e.address ≠ address := by
            intro hea
            obtain ⟨e₂, he₂, ha₂, hx₂, -⟩ := q.pointers element address hl
            have := List.inj_on_of_nodup_map q.nodup he he₂ (hea.trans ha₂.symm)
            exact hx (he'.symm.trans (this ▸ hx₂))
          refine ⟨e, List.mem_map.mpr ⟨e, he, if_neg hne⟩, ha, he', hr⟩), true)

end RandomAccessQueue

end BlindBoard.Firestore
