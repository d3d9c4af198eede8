import Mathlib.Data.List.Nodup
import Mathlib.Data.List.Pairwise
import Mathlib.Data.List.Perm.Basic
import Mathlib.Tactic.Tauto

/-!
# Sorted sets with a comparator

A sorted set lists its elements in the order of a comparator `cmp`; elements
that compare as equal take each other's place. What is in a set after an
operation is said by `mem_insert` and `mem_erase`, and a set is determined by what
is in it (`eq_of_mem`). `take_congr` compares the first elements of a list with
those of a part of it: they are the same if every element that the part lacks
has enough of the part before it.
-/

namespace BlindBoard.Lib

/-- Elements compared by what `f` makes of them. -/
theorem transCmp_comap {α β : Type*} (cmp : β → β → Ordering) [Std.TransCmp cmp] (f : α → β) :
    Std.TransCmp fun a b => cmp (f a) (f b) where
  eq_swap := Std.OrientedCmp.eq_swap
  isLE_trans := Std.TransCmp.isLE_trans

/-- Of two elements one is not after the other. -/
theorem total_isLE {α : Type*} (cmp : α → α → Ordering) [Std.OrientedCmp cmp] :
    Std.Total fun a b => (cmp a b).isLE = true where
  total a b := by
    cases h : cmp a b with
    | lt | eq => exact .inl rfl
    | gt => exact .inr (by rw [Std.OrientedCmp.gt_iff_lt.mp h]; rfl)

/-- The element of a key, where the keys differ. -/
theorem find_iff {α κ : Type*} [DecidableEq κ] {key : α → κ} {l : List α}
    (hn : (l.map key).Nodup) {k : κ} {a : α} :
    l.find? (fun x => key x = k) = some a ↔ a ∈ l ∧ key a = k := by
  constructor
  · intro h
    exact ⟨List.mem_of_find?_eq_some h, by simpa using List.find?_some h⟩
  · rintro ⟨h, rfl⟩
    cases hf : l.find? fun x => key x = key a with
    | none => simpa using List.find?_eq_none.mp hf a h
    | some b =>
      have hb : b ∈ l := List.mem_of_find?_eq_some hf
      have he : key b = key a := by simpa using List.find?_some hf
      rw [List.inj_on_of_nodup_map hn hb h he]

section Take

variable {α : Type*} {r : α → α → Prop} {S C : List α} {n : ℕ}

/-- Lists of the same elements in a strict order are the same. -/
theorem eq_of_mem_iff (hr : ∀ a b, r a b → ¬ r b a) (hS : S.Pairwise r)
    (hC : C.Pairwise r) (h : ∀ x, x ∈ S ↔ x ∈ C) :
    S = C := by
  have nodup {l : List α} (hl : l.Pairwise r) : l.Nodup := hl.imp fun hab => by
    rintro rfl
    exact hr _ _ hab hab
  have hp : S.Perm C := (List.perm_ext_iff_of_nodup (nodup hS) (nodup hC)).mpr h
  exact hp.eq_of_pairwise (fun a b _ _ hab hba => absurd hba (hr _ _ hab)) hS hC

/-- The first `n` elements of `C` are those of a part of it, if there are as many of the part
before each element that the part lacks. -/
theorem take_congr (hr : ∀ a b, r a b → ¬ r b a) (hS : S.Pairwise r) (hC : C.Pairwise r) (hsub : S ⊆ C)
    [DecidableRel r] (h : ∀ x ∈ C, x ∉ S → n ≤ S.countP fun a => r a x) : S.take n = C.take n := by
  induction C generalizing S n with
  | nil => rw [List.subset_nil.mp hsub]
  | cons c C ih =>
    obtain ⟨hc, hC⟩ := List.pairwise_cons.mp hC
    by_cases hcS : c ∈ S
    · -- `c` is the first of the part as well
      obtain ⟨S', rfl⟩ : ∃ S', S = c :: S' := by
        cases S with
        | nil => cases hcS
        | cons s S' =>
          rcases List.mem_cons.mp (hsub (List.mem_cons_self)) with rfl | hs
          · exact ⟨S', rfl⟩
          · rcases List.mem_cons.mp hcS with rfl | hcS
            · exact ⟨S', rfl⟩
            · exact absurd (hc s hs) (hr _ _ ((List.pairwise_cons.mp hS).1 c hcS))
      obtain ⟨hcS', hS'⟩ := List.pairwise_cons.mp hS
      have irrefl : ¬ r c c := fun hcc => hr _ _ hcc hcc
      cases n with
      | zero => rfl
      | succ n =>
        rw [List.take_succ_cons, List.take_succ_cons]
        refine congrArg (c :: ·) (ih hS' hC (fun x hx => ?_) fun x hx hxS => ?_)
        · rcases List.mem_cons.mp (hsub (List.mem_cons_of_mem _ hx)) with rfl | hx'
          · exact absurd (hcS' _ hx) irrefl
          · exact hx'
        · have hne : x ∉ c :: S' := by
            rintro (_ | ⟨_, hx'⟩)
            · exact irrefl (hc _ hx)
            · exact hxS hx'
          have hle := h x (List.mem_cons_of_mem _ hx) hne
          rw [List.countP_cons] at hle
          split at hle <;> omega
    · -- nothing of the part is before `c`
      have hzero : S.countP (fun a => r a c) = 0 := by
        refine List.countP_eq_zero.mpr fun a ha => ?_
        rcases List.mem_cons.mp (hsub ha) with rfl | haC
        · exact absurd ha hcS
        · simpa using hr _ _ (hc a haC)
      have hn := h c List.mem_cons_self hcS
      obtain rfl : n = 0 := by omega
      rfl

/-- The last elements are the first ones the other way round. -/
theorem drop_congr (hr : ∀ a b, r a b → ¬ r b a) (hS : S.Pairwise r) (hC : C.Pairwise r) (hsub : S ⊆ C)
    [DecidableRel r] (h : ∀ x ∈ C, x ∉ S → n ≤ S.countP fun a => r x a) :
    S.drop (S.length - n) = C.drop (C.length - n) := by
  have hrev : S.reverse.take n = C.reverse.take n := by
    refine take_congr (r := fun a b => r b a) (fun a b => hr b a) (List.pairwise_reverse.mpr hS)
      (List.pairwise_reverse.mpr hC) (fun x hx => ?_) fun x hx hxS => ?_
    · exact List.mem_reverse.mpr (hsub (List.mem_reverse.mp hx))
    · rw [List.countP_reverse]
      exact h x (List.mem_reverse.mp hx) fun hx' => hxS (List.mem_reverse.mpr hx')
  rw [List.take_reverse, List.take_reverse] at hrev
  exact List.reverse_injective hrev

/-- A list with an element that satisfies `p` for each of different keys has as many of them. -/
theorem length_le_countP {β : Type*} {l l' : List (α × β)} {p : α × β → Bool} (hn : (l.map Prod.fst).Nodup)
    (h : ∀ e ∈ l, ∃ v, (e.1, v) ∈ l' ∧ p (e.1, v) = true) : l.length ≤ l'.countP p := by
  have hsub : l.map Prod.fst ⊆ (l'.filter p).map Prod.fst := by
    intro k hk
    obtain ⟨e, he, rfl⟩ := List.mem_map.mp hk
    obtain ⟨v, hv, hp⟩ := h e he
    exact List.mem_map.mpr ⟨_, List.mem_filter.mpr ⟨hv, hp⟩, rfl⟩
  have hle := (List.subperm_of_subset hn hsub).length_le
  rwa [List.length_map, List.length_map, ← List.countP_eq_length_filter] at hle

end Take

/-- A list in the strict order of `cmp`. -/
structure SortedSet {α : Type*} (cmp : α → α → Ordering) where
  toList : List α
  sorted : toList.Pairwise fun a b => cmp a b = .lt

namespace SortedSet

variable {α : Type*} {cmp : α → α → Ordering}

instance : Membership α (SortedSet cmp) := ⟨fun s a => a ∈ s.toList⟩

instance [DecidableEq α] (a : α) (s : SortedSet cmp) : Decidable (a ∈ s) :=
  inferInstanceAs (Decidable (a ∈ s.toList))

theorem mem_def {a : α} {s : SortedSet cmp} : a ∈ s ↔ a ∈ s.toList := Iff.rfl

def empty : SortedSet cmp := ⟨[], .nil⟩

def min (s : SortedSet cmp) : Option α := s.toList.head?

def max (s : SortedSet cmp) : Option α := s.toList.getLast?

/-- The list with `a` at its place, instead of an element that is equal to it. -/
def insertSorted (cmp : α → α → Ordering) (a : α) : List α → List α
  | [] => [a]
  | b :: l =>
    match cmp a b with
    | .lt => a :: b :: l
    | .eq => a :: l
    | .gt => b :: insertSorted cmp a l

theorem mem_of_mem_insertSorted {a b : α} {l : List α} (h : b ∈ insertSorted cmp a l) : b = a ∨ b ∈ l := by
  induction l with
  | nil => exact .inl (List.mem_singleton.mp h)
  | cons c l ih =>
    unfold insertSorted at h
    split at h
    · exact (List.mem_cons.mp h).imp_right id
    · exact (List.mem_cons.mp h).imp_right (List.mem_cons_of_mem _)
    · rcases List.mem_cons.mp h with rfl | h
      · exact .inr List.mem_cons_self
      · exact (ih h).imp_right (List.mem_cons_of_mem _)

variable [Std.TransCmp cmp]

theorem sorted_insertSorted (a : α) {l : List α} (h : l.Pairwise fun a b => cmp a b = .lt) :
    (insertSorted cmp a l).Pairwise fun a b => cmp a b = .lt := by
  induction l with
  | nil => exact List.pairwise_singleton _ _
  | cons b l ih =>
    obtain ⟨hb, hl⟩ := List.pairwise_cons.mp h
    unfold insertSorted
    split
    next hab =>
      refine List.pairwise_cons.mpr ⟨fun c hc => ?_, h⟩
      rcases List.mem_cons.mp hc with rfl | hc
      · exact hab
      · exact Std.TransCmp.lt_trans hab (hb c hc)
    next hab =>
      refine List.pairwise_cons.mpr ⟨fun c hc => ?_, hl⟩
      exact (Std.TransCmp.congr_left hab).trans (hb c hc)
    next hab =>
      refine List.pairwise_cons.mpr ⟨fun c hc => ?_, ih hl⟩
      rcases mem_of_mem_insertSorted hc with rfl | hc
      · exact Std.OrientedCmp.gt_iff_lt.mp hab
      · exact hb c hc

def insert (s : SortedSet cmp) (a : α) : SortedSet cmp :=
  ⟨insertSorted cmp a s.toList, sorted_insertSorted a s.sorted⟩

omit [Std.TransCmp cmp] in
def erase (s : SortedSet cmp) (a : α) : SortedSet cmp :=
  ⟨s.toList.filter fun b => cmp a b ≠ .eq, s.sorted.filter _⟩

theorem mem_insert {s : SortedSet cmp} {a b : α} : b ∈ s.insert a ↔ b = a ∨ b ∈ s ∧ cmp a b ≠ .eq := by
  obtain ⟨l, hs⟩ := s
  show b ∈ insertSorted cmp a l ↔ b = a ∨ b ∈ l ∧ cmp a b ≠ .eq
  induction l with
  | nil => simp [insertSorted]
  | cons c l ih =>
    obtain ⟨hc, hl⟩ := List.pairwise_cons.mp hs
    unfold insertSorted
    split
    next hac =>
      -- every element is after `a`
      have hlt : ∀ x ∈ c :: l, cmp a x = .lt := by
        intro x hx
        rcases List.mem_cons.mp hx with rfl | hx
        · exact hac
        · exact Std.TransCmp.lt_trans hac (hc x hx)
      rw [List.mem_cons]
      exact or_congr_right ⟨fun hb => ⟨hb, by simp [hlt b hb]⟩, And.left⟩
    next hac =>
      have hlt : ∀ x ∈ l, cmp a x = .lt := fun x hx => (Std.TransCmp.congr_left hac).trans (hc x hx)
      rw [List.mem_cons, List.mem_cons]
      refine or_congr_right ⟨fun hb => ⟨.inr hb, by simp [hlt b hb]⟩, ?_⟩
      rintro ⟨rfl | hb, hne⟩
      · exact absurd hac hne
      · exact hb
    next hac =>
      rw [List.mem_cons, List.mem_cons, ih hl]
      constructor
      · rintro (rfl | rfl | ⟨hb, hne⟩)
        · exact .inr ⟨.inl rfl, by simp [hac]⟩
        · exact .inl rfl
        · exact .inr ⟨.inr hb, hne⟩
      · rintro (rfl | ⟨rfl | hb, hne⟩)
        · exact .inr (.inl rfl)
        · exact .inl rfl
        · exact .inr (.inr ⟨hb, hne⟩)

omit [Std.TransCmp cmp] in
theorem mem_erase {s : SortedSet cmp} {a b : α} : b ∈ s.erase a ↔ b ∈ s ∧ cmp a b ≠ .eq := by
  show b ∈ s.toList.filter _ ↔ _
  simp [List.mem_filter, mem_def]

/-- Where only an element is equal to itself. -/
theorem mem_insert_iff [Std.LawfulEqCmp cmp] {s : SortedSet cmp} {a b : α} :
    b ∈ s.insert a ↔ b = a ∨ b ∈ s := by
  rw [mem_insert]
  refine ⟨Or.imp_right And.left, ?_⟩
  rintro (rfl | hb)
  · exact .inl rfl
  · by_cases hab : b = a
    · exact .inl hab
    · exact .inr ⟨hb, fun he => hab (Std.LawfulEqCmp.eq_of_compare he).symm⟩

omit [Std.TransCmp cmp] in
theorem mem_erase_iff [Std.LawfulEqCmp cmp] {s : SortedSet cmp} {a b : α} :
    b ∈ s.erase a ↔ b ∈ s ∧ b ≠ a := by
  rw [mem_erase, Ne, Std.LawfulEqCmp.compare_eq_iff_eq, Ne, eq_comm]

theorem mem_foldl_insert [Std.LawfulEqCmp cmp] {l : List α} {s : SortedSet cmp} {a : α} :
    a ∈ l.foldl insert s ↔ a ∈ s ∨ a ∈ l := by
  induction l generalizing s with
  | nil => simp
  | cons b l ih =>
    rw [List.foldl_cons, ih, mem_insert_iff, List.mem_cons]
    tauto

omit [Std.TransCmp cmp] in
theorem mem_foldl_erase [Std.LawfulEqCmp cmp] {l : List α} {s : SortedSet cmp} {a : α} :
    a ∈ l.foldl erase s ↔ a ∈ s ∧ a ∉ l := by
  induction l generalizing s with
  | nil => simp
  | cons b l ih =>
    rw [List.foldl_cons, ih, mem_erase_iff, List.mem_cons]
    tauto

theorem asymm {a b : α} (h : cmp a b = .lt) : ¬ cmp b a = .lt := by
  rw [Std.OrientedCmp.gt_iff_lt.mpr h]
  simp

theorem nodup (s : SortedSet cmp) : s.toList.Nodup :=
  s.sorted.imp fun h => by
    rintro rfl
    exact asymm h h

/-- A set is what is in it. -/
theorem eq_of_mem {s t : SortedSet cmp} (h : ∀ a, a ∈ s ↔ a ∈ t) : s = t := by
  obtain ⟨l, hl⟩ := s
  obtain ⟨l', hl'⟩ := t
  obtain rfl : l = l' := eq_of_mem_iff (fun a b => asymm) hl hl' h
  rfl

/-- Without its greatest element, a set is its list without the last one. -/
theorem erase_max {s : SortedSet cmp} {a : α} (h : s.max = some a) :
    (s.erase a).toList = s.toList.dropLast := by
  obtain ⟨t, rest⟩ := s
  obtain ⟨l, rfl⟩ : ∃ l, t = l ++ [a] := List.getLast?_eq_some_iff.mp h
  obtain ⟨-, -, hlt⟩ := List.pairwise_append.mp rest
  show (l ++ [a]).filter _ = (l ++ [a]).dropLast
  rw [List.dropLast_concat, List.filter_append, List.filter_eq_self.mpr,
    List.filter_cons_of_neg, List.filter_nil, List.append_nil]
  · simp [Std.ReflCmp.compare_self]
  · intro b hb
    have := hlt b hb a (List.mem_singleton_self a)
    simp [Std.OrientedCmp.gt_iff_lt.mpr this]

/-- Without its least element, a set is its list without the first one. -/
theorem erase_min {s : SortedSet cmp} {a : α} (h : s.min = some a) : (s.erase a).toList = s.toList.tail := by
  obtain ⟨t, rest⟩ := s
  obtain ⟨l, rfl⟩ : ∃ l, t = a :: l := List.head?_eq_some_iff.mp h
  obtain ⟨hlt, -⟩ := List.pairwise_cons.mp rest
  show (a :: l).filter (fun b => cmp a b ≠ .eq) = (a :: l).tail
  rw [List.filter_cons_of_neg (by simp [Std.ReflCmp.compare_self]), List.tail_cons, List.filter_eq_self]
  intro b hb
  simp [hlt b hb]

end SortedSet

end BlindBoard.Lib
