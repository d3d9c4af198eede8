import Mathlib.Data.String.Basic
import BlindBoard.Lib.PercentEncoding

/-!
# The order of UTF-8

Texts in the order of their bytes are in the order of their characters: the
encoding of a lesser character is lesser at some byte, whatever follows
(`utf8EncodeChar_lt`).
-/

namespace BlindBoard.Lib

theorem utf8EncodeChar_lt {c d : Char} (h : c < d) (xs ys : List UInt8) :
    String.utf8EncodeChar c ++ xs < String.utf8EncodeChar d ++ ys := by
  have hlt : c.val.toNat < d.val.toNat := h
  have hvalid : d.val.toNat < 0x110000 := by
    rcases d.valid with h | h
    · exact Nat.lt_trans h (by decide)
    · exact h.2
  unfold String.utf8EncodeChar
  generalize c.val.toNat = m at hlt ⊢
  generalize d.val.toNat = n at hlt hvalid ⊢
  -- either the lengths differ, and the first bytes with them, or the digits to base 64 are compared
  dsimp only
  repeat' split
  all_goals
    simp only [List.cons_append, List.nil_append, List.cons_lt_cons_iff,
      UInt8.lt_iff_toNat_lt, ← UInt8.toNat_inj,
      UInt8.toNat_ofNat']
    simp (disch := omega) only [Nat.mod_eq_of_lt, Nat.reducePow]
    omega

theorem utf8_lt {s t : List Char} (h : s < t) : utf8 s < utf8 t := by
  induction s generalizing t with
  | nil =>
    cases t with
    | nil => exact absurd h (List.lt_irrefl _)
    | cons d t =>
      obtain ⟨b, l, he⟩ := List.exists_cons_of_length_pos (length_utf8EncodeChar_pos d)
      rw [utf8_cons, he]
      exact List.nil_lt_cons _ _
  | cons c s ih =>
    cases t with
    | nil => exact absurd h (List.not_lt_nil _)
    | cons d t =>
      rw [utf8_cons, utf8_cons]
      rcases List.cons_lt_cons_iff.mp h with hcd | ⟨rfl, hst⟩
      · exact utf8EncodeChar_lt hcd _ _
      · exact List.append_left_lt (ih hst)

/-- The lexicographic comparison is that of the lexicographic order. -/
theorem compareLex_lt {α : Type*} [LT α] {cmp : α → α → Ordering} (hlt : ∀ a b, cmp a b = .lt ↔ a < b)
    (heq : ∀ a b, cmp a b = .eq ↔ a = b) {l l' : List α} : List.compareLex cmp l l' = .lt ↔ l < l' := by
  induction l generalizing l' with
  | nil =>
    cases l' with
    | nil => simp [List.compareLex_nil_nil]
    | cons b l' => simp [List.compareLex_nil_cons]
  | cons a l ih =>
    cases l' with
    | nil => simp [List.compareLex_cons_nil]
    | cons b l' => rw [List.compareLex_cons_cons, Ordering.then_eq_lt, hlt, heq, ih, List.cons_lt_cons_iff]

theorem utf8_injective : Function.Injective utf8 := by
  intro s t h
  rcases lt_trichotomy s t with hlt | heq | hlt
  · exact absurd (h ▸ utf8_lt hlt) (List.lt_irrefl _)
  · exact heq
  · exact absurd (h ▸ utf8_lt hlt) (List.lt_irrefl _)

end BlindBoard.Lib
