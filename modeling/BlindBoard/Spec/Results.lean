import Mathlib.Data.List.Count
import Mathlib.Data.List.Sort
import BlindBoard.Impl.DocumentSet

/-!
# The results of a query

What a query shows of the documents that the local store has: those that it
matches, in its order, within its limit (`results`). Of a document it shows the key
and and the fields (`data`); when its writes reach the service is not part of it. A
limit leaves the same of a list as of a part of it that has enough around what it
lacks (`cut_congr`), and nothing of what has enough inside of it (`not_mem_cut`).
-/

namespace BlindBoard.Firestore

open Lib

/-- What a query shows of a document. -/
def Document.data (doc : Document) : Path × Dictionary := (doc.key, doc.value)

/-! ## Limits -/

namespace Limit

variable {α : Type}

/-- What a limit leaves of a list. -/
def cut : Limit → List α → List α
  | .none, l => l
  | .first limit, l => l.take limit
  | .last limit, l => l.drop (l.length - limit)

/-- How many elements a limit leaves. -/
def limit : Limit → Option ℕ
  | .none => Option.none
  | .first limit | .last limit => some limit

/-- An element is farther inside a limit than another. -/
def Inner (r : α → α → Prop) : Limit → α → α → Prop
  | .none, _, _ => False
  | .first _, a, b => r a b
  | .last _, a, b => r b a

instance (r : α → α → Prop) [DecidableRel r] (l : Limit) : DecidableRel (l.Inner r) := fun a b =>
  match l with
  | .none => inferInstanceAs (Decidable False)
  | .first _ => inferInstanceAs (Decidable (r a b))
  | .last _ => inferInstanceAs (Decidable (r b a))

variable {r : α → α → Prop} {l : Limit} {S C : List α}

/-- A limit leaves the same of a list as of a part of it, if there are as many of the part
inside of each element that the part lacks. -/
theorem cut_congr [DecidableRel r] (hr : ∀ a b, r a b → ¬ r b a) (hS : S.Pairwise r)
    (hC : C.Pairwise r) (hsub : S ⊆ C)
    (h : ∀ x ∈ C, x ∉ S → ∃ n, l.limit = some n ∧ n ≤ S.countP fun a => l.Inner r a x) :
    l.cut S = l.cut C := by
  cases l with
  | none =>
    refine eq_of_mem_iff hr hS hC fun x =>
      ⟨fun hx => hsub hx, fun hx => Classical.byContradiction fun hn => ?_⟩
    obtain ⟨n, hl, -⟩ := h x hx hn
    cases hl
  | first n =>
    refine take_congr hr hS hC hsub fun x hx hn => ?_
    obtain ⟨_, ⟨⟩, hle⟩ := h x hx hn
    exact hle
  | last n =>
    refine drop_congr hr hS hC hsub fun x hx hn => ?_
    obtain ⟨_, ⟨⟩, hle⟩ := h x hx hn
    exact hle

/-- What a limit leaves is full and inside of what it does not leave. -/
theorem cut_full (hC : C.Pairwise r) {x : α} (hx : x ∈ C) (hn : x ∉ l.cut C) :
    ∃ n, l.limit = some n ∧ (l.cut C).length = n ∧ ∀ a ∈ l.cut C, l.Inner r a x := by
  -- the list is what the limit leaves and what it does not
  have parts (k : ℕ) : (C.take k ++ C.drop k).Pairwise r := by rwa [List.take_append_drop]
  have mem (k : ℕ) : x ∈ C.take k ∨ x ∈ C.drop k := List.mem_append.mp (by rwa [List.take_append_drop])
  cases l with
  | none => exact absurd hx hn
  | first n =>
    have hd : x ∈ C.drop n := (mem n).resolve_left hn
    refine ⟨n, rfl, ?_, fun a ha => (List.pairwise_append.mp (parts n)).2.2 a ha x hd⟩
    have := List.length_pos_of_mem hd
    rw [List.length_drop] at this
    show (C.take n).length = n
    rw [List.length_take]
    omega
  | last n =>
    have ht : x ∈ C.take (C.length - n) := (mem _).resolve_right hn
    refine ⟨n, rfl, ?_, fun a ha => (List.pairwise_append.mp (parts _)).2.2 x ht a ha⟩
    have := List.length_pos_of_mem ht
    rw [List.length_take] at this
    show (C.drop (C.length - n)).length = n
    rw [List.length_drop]
    omega

/-- What has as many elements inside of it as a limit leaves is not among them. -/
theorem not_mem_cut [DecidableRel r] (hr : ∀ a b, r a b → ¬ r b a) (hC : C.Pairwise r) {x : α} {n : ℕ}
    (hl : l.limit = some n) (hn : n ≤ C.countP fun a => l.Inner r a x) : x ∉ l.cut C := by
  intro hx
  have parts (k : ℕ) : (C.take k ++ C.drop k).Pairwise r := by rwa [List.take_append_drop]
  have count (k : ℕ) (p : α → Bool) : C.countP p = (C.take k).countP p + (C.drop k).countP p := by
    rw [← List.countP_append, List.take_append_drop]
  -- `x` is not inside of itself
  have few {k : List α} (hk : x ∈ k) : (k.countP fun a => l.Inner r a x) < k.length := by
    refine List.countP_lt_length_iff.mpr ⟨x, hk, decide_eq_false fun hi => ?_⟩
    have hxx : r x x := by cases l <;> first | exact hi | cases hl
    exact hr x x hxx hxx
  cases l with
  | none => cases hl
  | first m =>
    cases hl
    have hzero : ((C.drop n).countP fun a => (Limit.first n).Inner r a x) = 0 := by
      refine List.countP_eq_zero.mpr fun a ha => ?_
      rw [decide_eq_true_iff]
      exact hr _ _ ((List.pairwise_append.mp (parts n)).2.2 x hx a ha)
    have hlt := few hx
    have hlen := List.length_take_le n C
    rw [count n, hzero] at hn
    change x ∈ C.take n at hx
    simp only [cut] at hlt
    omega
  | last m =>
    cases hl
    have hzero : ((C.take (C.length - n)).countP fun a => (Limit.last n).Inner r a x) = 0 := by
      refine List.countP_eq_zero.mpr fun a ha => ?_
      rw [decide_eq_true_iff]
      exact hr _ _ ((List.pairwise_append.mp (parts _)).2.2 a ha x hx)
    have hlt := few hx
    have hlen : (C.drop (C.length - n)).length ≤ n := by
      rw [List.length_drop]
      omega
    rw [count (C.length - n), hzero] at hn
    simp only [cut] at hlt
    omega

theorem cut_subset : l.cut C ⊆ C := by
  cases l with
  | none => exact List.Subset.refl _
  | first n => exact List.take_subset n C
  | last n => exact List.drop_subset _ C

/-- What is not farther outside than an element is inside of what that is inside of. -/
theorem Inner.of_not {cmp : α → α → Ordering} [Std.TransCmp cmp] {a b c : α}
    (h : l.Inner (fun a b => cmp a b = .lt) a c) (hn : ¬ l.Inner (fun a b => cmp a b = .lt) a b) :
    l.Inner (fun a b => cmp a b = .lt) b c := by
  have le {a b : α} (hab : ¬ cmp a b = .lt) : (cmp b a).isLE = true := by
    by_contra hle
    exact hab (Std.OrientedCmp.lt_of_not_isLE hle)
  cases l with
  | none => exact h
  | first n => exact Std.TransCmp.lt_of_isLE_of_lt (le hn) h
  | last n => exact Std.TransCmp.lt_of_lt_of_isLE h (le hn)

theorem map_cut {β : Type} (f : α → β) : (l.cut C).map f = l.cut (C.map f) := by
  cases l <;> simp [cut]

end Limit

namespace Query

variable {q : Query}

/-- The documents that the query matches, in its order. -/
def listing (q : Query) (documents : DocumentMap) : List Document :=
  (documents.documents.filter q.Matches).insertionSort fun lhs rhs => (q.totalOrder lhs rhs).isLE = true

/-- The documents that the query shows, in its order. -/
def results (q : Query) (documents : DocumentMap) : List Document := q.limit.cut (q.listing documents)

/-- The order sees what is shown. -/
theorem totalOrder_data {lhs lhs' rhs rhs' : Document} (hl : lhs.data = lhs'.data)
    (hr : rhs.data = rhs'.data) :
    q.totalOrder lhs rhs = q.totalOrder lhs' rhs' := by
  obtain ⟨hlk, hlv⟩ := Prod.mk.inj hl
  obtain ⟨hrk, hrv⟩ := Prod.mk.inj hr
  show totalOrderBy q.orderBys lhs rhs = totalOrderBy q.orderBys lhs' rhs'
  induction q.orderBys with
  | nil => rfl
  | cons orderBy orderBys ih =>
    have hc : orderBy.totalOrder lhs rhs = orderBy.totalOrder lhs' rhs' := by
      unfold OrderBy.totalOrder
      rw [hlk, hlv, hrk, hrv]
    rw [totalOrderBy_cons, totalOrderBy_cons, hc, ih]

/-- The order of what is shown. -/
def compareData (q : Query) (a b : Path × Dictionary) : Ordering :=
  q.totalOrder ⟨a.1, .foundDocument, a.2, .synced⟩ ⟨b.1, .foundDocument, b.2, .synced⟩

instance : Std.TransCmp q.compareData :=
  transCmp_comap q.totalOrder fun a : Path × Dictionary => ⟨a.1, .foundDocument, a.2, .synced⟩

/-- What is shown before what else. -/
abbrev Before (q : Query) (a b : Path × Dictionary) : Prop := q.compareData a b = .lt

theorem compareData_data {lhs rhs : Document} : q.compareData lhs.data rhs.data = q.totalOrder lhs rhs :=
  totalOrder_data rfl rfl

/-- What is shown of sorted documents is sorted. -/
theorem sorted_data {docs : List Document} (h : docs.Pairwise fun lhs rhs => q.totalOrder lhs rhs = .lt) :
    (docs.map Document.data).Pairwise q.Before :=
  List.pairwise_map.mpr (h.imp compareData_data.trans)

/-- Two documents of different keys stand in the order. -/
theorem lt_of_isLE {lhs rhs : Document} (h : (q.totalOrder lhs rhs).isLE = true) (hne : lhs.key ≠ rhs.key) :
    q.totalOrder lhs rhs = .lt := by
  rcases Ordering.isLE_iff_eq_lt_or_eq_eq.mp h with hlt | heq
  · exact hlt
  · exact absurd (totalOrder_eq heq) hne

instance : Std.Total fun lhs rhs => (q.totalOrder lhs rhs).isLE = true := total_isLE q.totalOrder

instance : IsTrans Document fun lhs rhs => (q.totalOrder lhs rhs).isLE = true :=
  ⟨fun _ _ _ => Std.TransCmp.isLE_trans⟩

theorem mem_listing {documents : DocumentMap} {doc : Document} :
    doc ∈ q.listing documents ↔ doc ∈ documents.documents ∧ q.Matches doc = true := by
  rw [listing, List.mem_insertionSort, List.mem_filter]

theorem sorted_listing (documents : DocumentMap) :
    (q.listing documents).Pairwise fun lhs rhs => q.totalOrder lhs rhs = .lt := by
  have hle : (q.listing documents).Pairwise fun lhs rhs => (q.totalOrder lhs rhs).isLE = true :=
    List.pairwise_insertionSort _ _
  have hkeys : ((q.listing documents).map Document.key).Nodup := by
    have hp := (List.perm_insertionSort (fun lhs rhs => (q.totalOrder lhs rhs).isLE = true)
      (documents.documents.filter q.Matches)).map Document.key
    exact hp.nodup_iff.mpr (documents.filter q.Matches).nodup
  have hne : (q.listing documents).Pairwise fun lhs rhs => lhs.key ≠ rhs.key := List.pairwise_map.mp hkeys
  exact (hle.and hne).imp fun h => lt_of_isLE h.1 h.2

end Query

end BlindBoard.Firestore
