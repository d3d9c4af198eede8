import Mathlib.Algebra.Group.Nat.Defs
import Mathlib.Data.List.Lex
import Mathlib.Data.Char

/-!
# Numbers of fixed width

A number written with a fixed count of decimal digits (`digits`), and a text
of several such numbers, each followed by a separator (`render`). Texts of one
template compare as their numbers do, the first field first (`render_lt`),
because fields of the same place have the same length.
-/

namespace BlindBoard.Lib

/-- The last `n` decimal digits of `k`. -/
def digits : Nat → Nat → List Char
  | 0, _ => []
  | n + 1, k => digits n (k / 10) ++ [Nat.digitChar (k % 10)]

@[simp] theorem length_digits (n k : Nat) : (digits n k).length = n := by
  induction n generalizing k with
  | zero => rfl
  | succ n ih => simp [digits, ih]

/-- Texts that differ within their first parts compare as these do. -/
theorem append_lt_append {α : Type*} [LT α] {l l' : List α} (h : l < l')
    (hl : l.length = l'.length) (m m' : List α) :
    l ++ m < l' ++ m' := by
  induction h with
  | nil => simp at hl
  | rel h => exact .rel h
  | cons _ ih => exact .cons (ih (by simpa using hl))

theorem digitChar_lt {a b : Nat} (hb : b < 10) (h : a < b) : Nat.digitChar a < Nat.digitChar b := by
  show (Nat.digitChar a).toNat < (Nat.digitChar b).toNat
  rw [Nat.toNat_digitChar_of_lt_ten (by omega), Nat.toNat_digitChar_of_lt_ten hb]
  omega

/-- Numbers that fit compare as their digits do, by induction on the width: the
leading digits decide, and the last one where these agree. -/
theorem digits_lt {n a b : Nat} (hb : b < 10 ^ n) (h : a < b) : digits n a < digits n b := by
  induction n generalizing a b with
  | zero => simp at hb; omega
  | succ n ih =>
    have hb' : b / 10 < 10 ^ n := by omega
    rw [digits, digits]
    by_cases hd : a / 10 < b / 10
    · exact append_lt_append (ih hb' hd) (by simp) _ _
    · have he : a / 10 = b / 10 := by omega
      have hm : a % 10 < b % 10 := by omega
      rw [he]
      exact List.append_left_lt (.rel (digitChar_lt (Nat.mod_lt _ (by decide)) hm))

/-- The place of a number in a text: its width, and what follows it. -/
structure Field where
  width : Nat
  separator : List Char

def render : List Field → List Nat → List Char
  | f :: fs, k :: ks => digits f.width k ++ f.separator ++ render fs ks
  | _, _ => []

/-- Each number has a place, and fits it. -/
inductive Fits : List Field → List Nat → Prop
  | nil : Fits [] []
  | cons {f fs k ks} : k < 10 ^ f.width → Fits fs ks → Fits (f :: fs) (k :: ks)

/-- Texts of one template compare as the numbers in them. -/
theorem render_lt {fs : List Field} {ks ks' : List Nat} (hf : Fits fs ks) (hf' : Fits fs ks') (h : ks < ks') :
    render fs ks < render fs ks' := by
  induction hf generalizing ks' with
  | nil =>
    cases hf'
    cases h
  | @cons f fs k ks hk hf ih =>
    cases hf' with
    | @cons _ _ k' ks' hk' hf' =>
      cases h with
      | rel h =>
        rw [render, render, List.append_assoc, List.append_assoc]
        exact append_lt_append (digits_lt hk' h) (by simp) _ _
      | cons h =>
        rw [render, render]
        exact List.append_left_lt (ih hf' h)

end BlindBoard.Lib
