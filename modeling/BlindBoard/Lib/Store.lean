import Mathlib.Data.List.AList
import Mathlib.Data.List.Sort

/-!
# Keyed stores with ordered queries

A store maps keys to values and lists its entries (`AList`, whose keys are
distinct by construction). `query p r` lists the entries that satisfy `p`,
sorted by `r`; `restrict p` is the part of the store with keys in `p`. A
write to a key of the part is a write to the part, a write to another key
leaves it alone, and a query that only asks for keys of the part is answered
by the part. Two stores are `Inverse` where the one leads from a key to where
the other has a value for it.
-/

namespace BlindBoard.Lib

/-- A finite map from keys to values. -/
abbrev Store (α β : Type*) := AList fun _ : α => β

namespace Store

variable {α β : Type*}

/-- The entries that satisfy `p`, in the order `r`. -/
def query (p : α → β → Bool) (r : α × β → α × β → Prop) [DecidableRel r] (m : Store α β) : List (α × β) :=
  ((m.entries.map fun e => (e.1, e.2)).filter fun e => p e.1 e.2).insertionSort r

/-- The part of the store with keys in `q`. -/
def restrict (q : α → Bool) (m : Store α β) : Store α β :=
  ⟨m.entries.filter fun e => q e.1, m.nodupKeys.sublist List.filter_sublist⟩

theorem length_keys_erase_le [DecidableEq α] (m : Store α β) (a : α) :
    (m.erase a).keys.length ≤ m.keys.length := by
  rw [AList.keys_erase]
  exact List.erase_sublist.length_le

theorem length_keys_insert_le [DecidableEq α] (m : Store α β) (a : α) (b : β) :
    (m.insert a b).keys.length ≤ m.keys.length + 1 := by
  rw [AList.keys_insert, List.length_cons]
  exact Nat.succ_le_succ List.erase_sublist.length_le

section Query

variable {p : α → β → Bool} {r : α × β → α × β → Prop} [DecidableRel r]

theorem mem_query [DecidableEq α] {m : Store α β} {a : α} {b : β} :
    (a, b) ∈ query p r m ↔ m.lookup a = some b ∧ p a b = true := by
  rw [query, List.mem_insertionSort, List.mem_filter, ← AList.mem_lookup_iff.symm.trans Option.mem_def]
  simp only [List.mem_map, Prod.mk.injEq, and_congr_left_iff]
  exact fun _ => ⟨fun ⟨e, he, h₁, h₂⟩ => by obtain ⟨a', b'⟩ := e; cases h₁; cases h₂; exact he,
    fun h => ⟨⟨a, b⟩, h, rfl, rfl⟩⟩

theorem keys_query (m : Store α β) : ((query p r m).map Prod.fst).Nodup := by
  have hp :=
    (List.perm_insertionSort r ((m.entries.map fun e => (e.1, e.2)).filter fun e => p e.1 e.2)).map Prod.fst
  rw [query, hp.nodup_iff]
  refine List.Nodup.sublist (List.filter_sublist.map Prod.fst) ?_
  rw [List.map_map]
  exact m.keys_nodup

theorem sorted_query [Std.Total r] [IsTrans (α × β) r] (m : Store α β) : (query p r m).Pairwise r :=
  List.pairwise_insertionSort r _

end Query

section Restrict

variable {q : α → Bool}

theorem query_restrict {p : α → β → Bool} {r : α × β → α × β → Prop} [DecidableRel r]
    (h : ∀ a b, p a b = true → q a = true) (m : Store α β) : query p r (restrict q m) = query p r m := by
  simp only [query, restrict, List.filter_map, List.filter_filter]
  congr 2
  refine List.filter_congr fun e _ => ?_
  have := h e.1 e.2
  cases hp : p e.1 e.2 <;> simp_all

theorem mem_restrict_entries {m : Store α β} {e : Sigma fun _ : α => β} :
    e ∈ (restrict q m).entries ↔ e ∈ m.entries ∧ q e.1 = true := List.mem_filter

variable [DecidableEq α]

theorem lookup_restrict {m : Store α β} {a : α} (h : q a = true) : (restrict q m).lookup a = m.lookup a := by
  apply Option.ext
  intro b
  rw [← Option.mem_def, ← Option.mem_def, AList.mem_lookup_iff, AList.mem_lookup_iff, mem_restrict_entries]
  simp [h]

theorem filter_kerase (l : List (Sigma fun _ : α => β)) (hl : l.NodupKeys) (a : α) :
    (l.kerase a).filter (fun e => q e.1) = (l.filter fun e => q e.1).kerase a := by
  have h : ∀ l' : List (Sigma fun _ : α => β), l'.NodupKeys → l'.kerase a = l'.filter fun e => e.1 ≠ a := by
    intro l' hl'
    induction l' with
    | nil => rfl
    | cons e l' ih =>
      obtain ⟨hn, hl''⟩ := List.nodupKeys_cons.mp hl'
      by_cases he : a = e.1
      · subst he
        rw [List.kerase_cons_eq rfl, List.filter_cons_of_neg (by simp)]
        refine (List.filter_eq_self.mpr fun e' he' => ?_).symm
        simp only [ne_eq, decide_not, Bool.not_eq_eq_eq_not, Bool.not_true, decide_eq_false_iff_not]
        exact fun h => hn (h ▸ List.mem_keys_of_mem he')
      · rw [List.kerase_cons_ne he, List.filter_cons_of_pos (by simpa using Ne.symm he), ih hl'']
  rw [h l hl, h _ (hl.sublist List.filter_sublist), List.filter_filter, List.filter_filter]
  exact List.filter_congr fun e _ => Bool.and_comm _ _

theorem restrict_erase (m : Store α β) (a : α) : restrict q (m.erase a) = (restrict q m).erase a :=
  AList.ext (filter_kerase m.entries m.nodupKeys a)

theorem restrict_insert {m : Store α β} {a : α} (h : q a = true) (b : β) :
    restrict q (m.insert a b) = (restrict q m).insert a b := by
  refine AList.ext ?_
  simp only [restrict, AList.entries_insert]
  rw [List.filter_cons_of_pos (by simpa using h), filter_kerase _ m.nodupKeys]

theorem erase_of_lookup_none {m : Store α β} {a : α} (h : m.lookup a = none) : m.erase a = m :=
  AList.ext (List.kerase_of_notMem_keys (AList.lookup_eq_none.mp h))

/-- A key outside the part is not found in it. -/
theorem lookup_restrict_of_not {m : Store α β} {a : α} (h : q a = false) :
    (restrict q m).lookup a = none := by
  rw [Option.eq_none_iff_forall_not_mem]
  intro b hb
  simpa [h] using (mem_restrict_entries.mp (AList.mem_lookup_iff.mp hb)).2

theorem restrict_erase_of_not {m : Store α β} {a : α} (h : q a = false) :
    restrict q (m.erase a) = restrict q m := by
  rw [restrict_erase, erase_of_lookup_none (lookup_restrict_of_not h)]

theorem restrict_insert_of_not {m : Store α β} {a : α} (h : q a = false) (b : β) :
    restrict q (m.insert a b) = restrict q m := by
  refine AList.ext ?_
  simp only [restrict, AList.entries_insert]
  rw [List.filter_cons_of_neg (by simp [h])]
  exact congrArg AList.entries (restrict_erase_of_not (m := m) h)

end Restrict

section Inverse

variable {γ : Type*} {m : Store α γ} {m' : Store γ β} {f : β → α} {a : α} {c : γ} {b : β}

/-- The one store leads from a key to where the other has a value for it. -/
def Inverse (m : Store α γ) (m' : Store γ β) (f : β → α) [DecidableEq α] [DecidableEq γ] : Prop :=
  ∀ a c, m.lookup a = some c ↔ ∃ b, m'.lookup c = some b ∧ f b = a

variable [DecidableEq α] [DecidableEq γ]

theorem Inverse.insert (h : Inverse m m' f) (ha : m.lookup (f b) = none) (hc : m'.lookup c = none) :
    Inverse (m.insert (f b) c) (m'.insert c b) f := by
  intro a' c'
  by_cases hc' : c' = c
  · subst hc'
    rw [AList.lookup_insert]
    have hval : (∃ b', some b = some b' ∧ f b' = a') ↔ a' = f b := by simp [eq_comm]
    rw [hval]
    by_cases ha' : a' = f b
    · subst ha'
      simp
    · rw [AList.lookup_insert_ne ha', h]
      simp [hc, ha']
  · rw [AList.lookup_insert_ne hc', ← h]
    by_cases ha' : a' = f b
    · subst ha'
      simp [ha, Ne.symm hc']
    · rw [AList.lookup_insert_ne ha']

theorem Inverse.erase (h : Inverse m m' f) (ha : m.lookup a = some c) :
    Inverse (m.erase a) (m'.erase c) f := by
  obtain ⟨b, hb, hfb⟩ := (h a c).mp ha
  intro a' c'
  by_cases hc' : c' = c
  · subst hc'
    rw [AList.lookup_erase]
    by_cases ha' : a' = a
    · subst ha'
      simp
    · rw [AList.lookup_erase_ne ha', h, hb]
      have hne : f b ≠ a' := fun he => ha' (he.symm.trans hfb)
      simp [hne]
  · rw [AList.lookup_erase_ne hc', ← h]
    by_cases ha' : a' = a
    · subst ha'
      simp [ha, Ne.symm hc']
    · rw [AList.lookup_erase_ne ha']

/-- A value makes room for one of the same key. -/
theorem Inverse.replace (h : Inverse m m' f) {b' : β} (hb : m'.lookup c = some b) (hf : f b' = f b) :
    Inverse m (m'.insert c b') f := by
  intro a' c'
  by_cases hc' : c' = c
  · subst hc'
    rw [h, AList.lookup_insert, hb]
    simp [hf]
  · rw [h, AList.lookup_insert_ne hc']

end Inverse

end Store

/-- A list with the entries of `l.map f` lists the images of a permutation of `l`. -/
theorem exists_perm_of_perm_map {α β : Type*} {f : α → β} {l : List α} {l' : List β} (h : l'.Perm (l.map f)) :
    ∃ m : List α, m.Perm l ∧ l' = m.map f := by
  generalize hk : l.map f = k at h
  induction h generalizing l with
  | nil => exact ⟨[], by simpa using hk.symm, rfl⟩
  | cons x _ ih =>
    obtain ⟨y, m, rfl, rfl, hm⟩ := List.map_eq_cons_iff.mp hk
    obtain ⟨m', hp, rfl⟩ := ih hm
    exact ⟨y :: m', hp.cons y, rfl⟩
  | swap x y _ =>
    obtain ⟨a, m, rfl, rfl, hm⟩ := List.map_eq_cons_iff.mp hk
    obtain ⟨b, m', rfl, rfl, rfl⟩ := List.map_eq_cons_iff.mp hm
    exact ⟨b :: a :: m', .swap a b m', rfl⟩
  | trans _ _ ih₁ ih₂ =>
    obtain ⟨m, hm, rfl⟩ := ih₂ hk
    obtain ⟨m', hm', rfl⟩ := ih₁ rfl
    exact ⟨m', hm'.trans hm, rfl⟩

/-- Each element of a list has a partner for its image, and the partners are ordered as
the elements are. -/
theorem exists_forall₂_map {α β γ : Type*} {l : List α} {g : α → β} {R : γ → β → Prop} {P : γ → α → Prop}
    {S : α → α → Prop} {Q : γ → γ → Prop} [Nonempty γ] (h : ∀ a ∈ l, ∃ c, P c a ∧ R c (g a))
    (hS : l.Pairwise S)
    (hQ : ∀ a a' c c', S a a' → P c a → P c' a' → Q c c') :
    ∃ cs, List.Forall₂ R cs (l.map g) ∧ cs.Pairwise Q := by
  have hc : ∀ a, ∃ c, a ∈ l → P c a ∧ R c (g a) := by
    intro a
    by_cases ha : a ∈ l
    · obtain ⟨c, hc⟩ := h a ha
      exact ⟨c, fun _ => hc⟩
    · exact ⟨Classical.arbitrary γ, fun h => absurd h ha⟩
  choose f hf using hc
  refine ⟨l.map f, ?_, List.pairwise_map.mpr ?_⟩
  · rw [List.forall₂_map_left_iff, List.forall₂_map_right_iff, List.forall₂_same]
    exact fun a ha => (hf a ha).2
  · exact hS.imp_of_mem fun ha ha' hs => hQ _ _ _ _ hs (hf _ ha).1 (hf _ ha').1

end BlindBoard.Lib
