import Mathlib.Data.List.Infix
import Mathlib.Data.List.TakeWhile
import Mathlib.Data.String.Basic

/-!
# Percent-encoding

Texts are lists of characters, and decoding gives UTF-8 bytes (`utf8`).
`percentEncode` replaces the characters that are not legal, and a `'%'` that
starts no escape, and keeps the escapes that are there already: so decoding its
value decodes the text itself (`percentDecode_percentEncode`), which is the
text again where it has no escape (`percentDecode_eq_utf8_iff`). A delimiter
divides the encoded text where it divides the text (`percentEncode_append`).
-/

namespace BlindBoard.Lib

def utf8 (t : List Char) : List UInt8 := t.flatMap String.utf8EncodeChar

def hexValue (c : Char) : Option Nat :=
  if '0' ≤ c ∧ c ≤ '9' then some (c.toNat - 48)
  else if 'A' ≤ c ∧ c ≤ 'F' then some (c.toNat - 55)
  else if 'a' ≤ c ∧ c ≤ 'f' then some (c.toNat - 87)
  else none

/-- The byte that a text starts with an escape of. -/
def escaped : List Char → Option UInt8
  | p :: a :: b :: _ => if p = '%' then return UInt8.ofNat (16 * (← hexValue a) + (← hexValue b)) else none
  | _ => none

/-- The bytes of a text whose escapes are decoded. -/
def percentDecode : List Char → List UInt8
  | p :: a :: b :: rest =>
    match escaped [p, a, b] with
    | some byte => byte :: percentDecode rest
    | none => String.utf8EncodeChar p ++ percentDecode (a :: b :: rest)
  | t => utf8 t

def hexDigit (n : Nat) : Char := Char.ofNat (if n < 10 then 48 + n else 55 + n)

def escape (byte : UInt8) : List Char := ['%', hexDigit (byte.toNat / 16), hexDigit (byte.toNat % 16)]

/-- Whether the first character of a text stays as it is. -/
def keeps (legal : Char → Bool) : List Char → Bool
  | [] => true
  | c :: rest => if c = '%' then (escaped (c :: rest)).isSome else legal c

/-- The text with the escapes of what is not legal in it. -/
def percentEncode (legal : Char → Bool) : List Char → List Char
  | [] => []
  | c :: rest =>
    (if keeps legal (c :: rest) then [c] else (String.utf8EncodeChar c).flatMap escape) ++
      percentEncode legal rest

/-- An escape starts somewhere in the text. -/
def HasEscape (t : List Char) : Prop := ∃ u ∈ t.tails, (escaped u).isSome = true

instance (t : List Char) : Decidable (HasEscape t) := inferInstanceAs (Decidable (∃ u ∈ t.tails, _))

/-- What is checked for each element of a list. -/
theorem forall_mem_of_all {α : Type*} {p : α → Prop} [DecidablePred p]
    {l : List α} (h : l.all (fun a => p a) = true) :
    ∀ a ∈ l, p a := fun a ha => of_decide_eq_true (List.all_eq_true.mp h a ha)

/-! ## Bytes -/

@[simp] theorem utf8_nil : utf8 [] = [] := rfl

@[simp] theorem utf8_cons (c : Char) (t : List Char) :
    utf8 (c :: t) = String.utf8EncodeChar c ++ utf8 t := rfl

@[simp] theorem utf8_append (t t' : List Char) : utf8 (t ++ t') = utf8 t ++ utf8 t' := List.flatMap_append

theorem length_utf8EncodeChar_pos (c : Char) : 0 < (String.utf8EncodeChar c).length :=
  List.length_pos_iff.mpr String.utf8EncodeChar_ne_nil

theorem length_utf8_lt {t : List Char} (ht : t ≠ []) (s : List Char) :
    (utf8 s).length < (utf8 (s ++ t)).length := by
  obtain ⟨c, t, rfl⟩ := List.exists_cons_of_ne_nil ht
  have := length_utf8EncodeChar_pos c
  simp only [utf8_append, utf8_cons, List.length_append]
  omega

/-- A byte under `0x80` is a character of its own. -/
theorem mem_utf8EncodeChar {c : Char} {b : UInt8} (hb : b.toNat < 0x80) (h : b ∈ String.utf8EncodeChar c) :
    c.toNat = b.toNat := by
  show c.val.toNat = b.toNat
  unfold String.utf8EncodeChar at h
  generalize c.val.toNat = v at h ⊢
  simp only at h
  split_ifs at h <;> simp only [List.mem_cons, List.not_mem_nil, or_false] at h
  · subst h
    simp
    omega
  · rcases h with rfl | rfl <;> simp at hb <;> omega
  · rcases h with rfl | rfl | rfl <;> simp at hb <;> omega
  · rcases h with rfl | rfl | rfl | rfl <;> simp at hb <;> omega

theorem mem_utf8 {t : List Char} {b : UInt8} (hb : b.toNat < 0x80) (h : b ∈ utf8 t) :
    ∃ c ∈ t, c.toNat = b.toNat := by
  obtain ⟨c, hc, hbc⟩ := List.mem_flatMap.mp h
  exact ⟨c, hc, mem_utf8EncodeChar hb hbc⟩

/-! ## Escapes -/

theorem hexValue_hexDigit : ∀ n < 16, hexValue (hexDigit n) = some n := by decide

theorem escaped_escape (byte : UInt8) (rest : List Char) : escaped (escape byte ++ rest) = some byte := by
  have hlt := byte.toNat_lt
  have hhi := hexValue_hexDigit (byte.toNat / 16) (by omega)
  have hlo := hexValue_hexDigit (byte.toNat % 16) (by omega)
  have hb : 16 * (byte.toNat / 16) + byte.toNat % 16 = byte.toNat := by omega
  simp only [escape, escaped, List.cons_append, hhi, hlo, Option.bind_eq_bind,
    Option.bind_some, ↓reduceIte, hb,
    UInt8.ofNat_toNat]
  rfl

theorem escaped_eq_some {u : List Char} {byte : UInt8} (h : escaped u = some byte) : ∃ a b rest,
    u = '%' :: a :: b :: rest ∧ (hexValue a).isSome = true ∧ (hexValue b).isSome = true := by
  match u, h with
  | p :: a :: b :: rest, h =>
    simp only [escaped] at h
    split_ifs at h with hp
    cases ha : hexValue a with
    | none => simp [ha] at h
    | some x =>
      cases hb : hexValue b with
      | none => simp [ha, hb] at h
      | some y => exact ⟨a, b, rest, hp ▸ rfl, by simp [ha], by simp [hb]⟩

theorem escaped_of_ne {c : Char} (hc : c ≠ '%') (rest : List Char) : escaped (c :: rest) = none := by
  match rest with
  | [] | [_] => rfl
  | _ :: _ :: _ => exact if_neg hc

/-- Induction on a text, an escape or another character at a time. -/
@[elab_as_elim]
theorem text_induction {motive : List Char → Prop} (t : List Char) (nil : motive [])
    (char : ∀ c rest, escaped (c :: rest) = none → motive rest → motive (c :: rest))
    (escape : ∀ a b rest byte, escaped ('%' :: a :: b :: rest) = some byte → motive rest →
      motive ('%' :: a :: b :: rest)) : motive t := by
  match t with
  | [] => exact nil
  | c :: rest =>
    cases h : escaped (c :: rest) with
    | none => exact char c rest h (text_induction rest nil char escape)
    | some byte =>
      obtain ⟨a, b, rest', he, -, -⟩ := escaped_eq_some h
      cases he
      exact escape a b rest' byte h (text_induction rest' nil char escape)
  termination_by t.length

/-! ## Decoding -/

@[simp] theorem percentDecode_nil : percentDecode [] = [] := rfl

theorem percentDecode_char {c : Char} {rest : List Char} (h : escaped (c :: rest) = none) :
    percentDecode (c :: rest) = String.utf8EncodeChar c ++ percentDecode rest := by
  match rest with
  | [] | [_] => simp [percentDecode]
  | a :: b :: rest =>
    rw [percentDecode, show escaped [c, a, b] = none from h]

theorem percentDecode_escape {p a b : Char} {rest : List Char} {byte : UInt8}
    (h : escaped (p :: a :: b :: rest) = some byte) :
    percentDecode (p :: a :: b :: rest) = byte :: percentDecode rest := by
  rw [percentDecode, show escaped [p, a, b] = some byte from h]

theorem percentDecode_escapes (bytes : List UInt8) (rest : List Char) :
    percentDecode (bytes.flatMap escape ++ rest) = bytes ++ percentDecode rest := by
  induction bytes with
  | nil => rfl
  | cons byte bytes ih =>
    rw [List.flatMap_cons, List.append_assoc, List.cons_append, ← ih]
    exact percentDecode_escape (escaped_escape byte _)

/-- The bytes of a character that is no part of an escape are in the decoded text. -/
theorem mem_percentDecode {t : List Char} {c : Char} (hc : c ≠ '%') (hx : hexValue c = none) (h : c ∈ t) :
    ∀ byte ∈ String.utf8EncodeChar c, byte ∈ percentDecode t := by
  intro byte hb
  induction t using text_induction with
  | nil => exact absurd h List.not_mem_nil
  | char c' rest he ih =>
    rw [percentDecode_char he, List.mem_append]
    rcases List.mem_cons.mp h with rfl | h
    · exact .inl hb
    · exact .inr (ih h)
  | escape a b rest byte' he ih =>
    rw [percentDecode_escape he]
    obtain ⟨_, _, _, heq, ha, hb'⟩ := escaped_eq_some he
    cases heq
    have hne {d : Char} (hd : (hexValue d).isSome = true) : c ≠ d := by
      rintro rfl
      simp [hx] at hd
    simp only [List.mem_cons, hc, hne ha, hne hb', false_or] at h
    exact List.mem_cons_of_mem _ (ih h)

theorem hasEscape_cons {c : Char} {rest : List Char} :
    HasEscape (c :: rest) ↔ (escaped (c :: rest)).isSome = true ∨ HasEscape rest := by
  simp [HasEscape]

/-- An escape is three characters for one byte. -/
theorem length_percentDecode (t : List Char) : (percentDecode t).length ≤ (utf8 t).length ∧
    (HasEscape t → (percentDecode t).length < (utf8 t).length) := by
  induction t using text_induction with
  | nil => simp [HasEscape, escaped]
  | char c rest h ih =>
    simp only [percentDecode_char h, utf8_cons, List.length_append, hasEscape_cons, h]
    exact ⟨by omega, fun he => by have := ih.2 (by simpa using he); omega⟩
  | escape a b rest byte h ih =>
    have hp := length_utf8EncodeChar_pos '%'
    have ha := length_utf8EncodeChar_pos a
    simp only [percentDecode_escape h, utf8_cons, List.length_append, List.length_cons]
    exact ⟨by omega, fun _ => by omega⟩

/-- Decoding a text gives the text where it has no escape, and only there. -/
theorem percentDecode_eq_utf8_iff {t : List Char} : percentDecode t = utf8 t ↔ ¬ HasEscape t := by
  constructor
  · intro h he
    have := (length_percentDecode t).2 he
    rw [h] at this
    exact lt_irrefl _ this
  · intro h
    induction t with
    | nil => rfl
    | cons c rest ih =>
      obtain ⟨hc, hr⟩ := not_or.mp (hasEscape_cons.not.mp h)
      rw [percentDecode_char (by simpa using hc), ih hr, utf8_cons]

/-! ## Encoding -/

section

variable {legal : Char → Bool}

@[simp] theorem percentEncode_nil : percentEncode legal [] = [] := rfl

theorem percentEncode_keeps {c : Char} {rest : List Char} (h : keeps legal (c :: rest) = true) :
    percentEncode legal (c :: rest) = c :: percentEncode legal rest := by
  rw [percentEncode, if_pos h]
  rfl

theorem hexValue_ne {c : Char} (h : (hexValue c).isSome = true) : c ≠ '%' := by
  rintro rfl
  exact absurd h (by decide)

/-- The text's own escapes are kept, and the added ones decode to the characters they are for. -/
theorem percentDecode_percentEncode (hexLegal : ∀ c, (hexValue c).isSome = true → legal c = true)
    (t : List Char) :
    percentDecode (percentEncode legal t) = percentDecode t := by
  induction t using text_induction with
  | nil => rfl
  | char c rest h ih =>
    rw [percentDecode_char h, ← ih]
    by_cases hk : keeps legal (c :: rest) = true
    · rw [percentEncode_keeps hk, percentDecode_char]
      refine escaped_of_ne ?_ _
      rintro rfl
      simp [keeps, h] at hk
    · rw [percentEncode, if_neg hk, percentDecode_escapes]
  | escape a b rest byte h ih =>
    obtain ⟨_, _, _, he, ha, hb⟩ := escaped_eq_some h
    cases he
    have hk {c : Char} (hc : (hexValue c).isSome = true) (rest : List Char) :
      keeps legal (c :: rest) = true := by
      simp [keeps, hexValue_ne hc, hexLegal c hc]
    have he : escaped ('%' :: a :: b :: percentEncode legal rest) = some byte := h
    rw [percentEncode_keeps (by simp [keeps, h]), percentEncode_keeps (hk ha _),
      percentEncode_keeps (hk hb _),
      percentDecode_escape he, percentDecode_escape h, ih]

theorem percentEncode_append_of_legal {s : List Char} (hs : ∀ c ∈ s, legal c = true ∧ c ≠ '%')
    (t : List Char) :
    percentEncode legal (s ++ t) = s ++ percentEncode legal t := by
  induction s with
  | nil => rfl
  | cons c s ih =>
    obtain ⟨hl, hp⟩ := hs c List.mem_cons_self
    rw [List.cons_append, percentEncode_keeps (by simp [keeps, hp, hl]),
      ih fun c hc => hs c (List.mem_cons_of_mem _ hc)]
    rfl

/-- A legal character that is no part of an escape. -/
structure Delimiter (legal : Char → Bool) (d : Char) : Prop where
  legal : legal d = true
  ne : d ≠ '%'
  noHex : hexValue d = none

variable {d : Char} (hd : Delimiter legal d)

include hd

theorem keeps_append (c : Char) (s r : List Char) :
    keeps legal (c :: (s ++ d :: r)) = keeps legal (c :: s) := by
  have : (escaped (c :: (s ++ d :: r))).isSome = (escaped (c :: s)).isSome := by
    match s, r with
    | [], [] => rfl
    | [], _ :: _ => simp [escaped, hd.noHex]
    | [a], r =>
      cases ha : hexValue a <;> simp [escaped, hd.noHex, ha]
    | _ :: _ :: _, _ => rfl
  simp only [keeps, this]

/-- The encoding divides at a delimiter. -/
theorem percentEncode_append (s r : List Char) :
    percentEncode legal (s ++ d :: r) = percentEncode legal s ++ d :: percentEncode legal r := by
  induction s with
  | nil => exact percentEncode_keeps (by simp [keeps, hd.ne, hd.legal])
  | cons c s ih =>
    rw [List.cons_append, percentEncode, keeps_append hd, ih, percentEncode, List.append_assoc]

theorem mem_percentEncode {t : List Char} : d ∈ percentEncode legal t ↔ d ∈ t := by
  have hex {n : Nat} (hn : n < 16) : d ≠ hexDigit n := by
    rintro rfl
    exact absurd hd.noHex (by simp [hexValue_hexDigit n hn])
  have fresh (byte : UInt8) : d ∉ escape byte := by
    have := byte.toNat_lt
    simp [escape, hd.ne, hex (n := byte.toNat / 16) (by omega), hex (n := byte.toNat % 16) (by omega)]
  induction t with
  | nil => simp
  | cons c t ih =>
    by_cases hk : keeps legal (c :: t) = true
    · simp only [percentEncode_keeps hk, List.mem_cons, ih]
    · have hc : d ≠ c := by
        rintro rfl
        exact hk (by simp [keeps, hd.ne, hd.legal])
      simp [percentEncode, hk, ih, hc, fresh]

end

end BlindBoard.Lib
