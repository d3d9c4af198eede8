import Mathlib.Data.String.Basic
import Mathlib.Tactic.NormNum
import BlindBoard.Lib.FixedWidth

/-!
# Instants and their text

`Date` and `ISO8601Format()`, which writes the UTC date and time of an instant
as `yyyy-MM-ddTHH:mm:ssZ`, with whole seconds. Texts of the years 0001 to 9999
compare as the seconds that they name (`ISO8601Format_lt_iff`): the parts of a
second are not in the text, and everything else is, the greatest part first.
-/

namespace BlindBoard

open Lib

/-- An instant, in seconds from 2001-01-01T00:00:00Z. -/
structure Date where
  timeIntervalSinceReferenceDate : Rat
  deriving DecidableEq

namespace Date

/-! ## The calendar -/

/-- The day a year starts, counted from 0001-01-01. -/
def yearStart (year : Int) : Int := 365 * (year - 1) + (year - 1) / 4 - (year - 1) / 100 + (year - 1) / 400

/-- The year of a day: cycles of 400, 100 and 4 years, the last of which are a day longer or shorter. -/
def yearOf (day : Int) : Int :=
  let n400 := day / 146097
  let r := day % 146097
  let n100 := min (r / 36524) 3
  let r := r - n100 * 36524
  let n4 := r / 1461
  let r := r % 1461
  let n1 := min (r / 365) 3
  400 * n400 + 100 * n100 + 4 * n4 + n1 + 1

def isLeap (year : Int) : Bool := year % 4 = 0 && (year % 100 ≠ 0 || year % 400 = 0)

/-- The days of a year on which its months start. -/
def monthStarts : Bool → List Nat
  | false => [0, 31, 59, 90, 120, 151, 181, 212, 243, 273, 304, 334]
  | true => [0, 31, 60, 91, 121, 152, 182, 213, 244, 274, 305, 335]

/-- The month of a day of a year. -/
def month (leap : Bool) (day : Nat) : Nat := (monthStarts leap).countP fun s => s ≤ day

/-- The day of the month. -/
def dayOfMonth (leap : Bool) (day : Nat) : Nat := day + 1 - (monthStarts leap).getD (month leap day - 1) 0

/-! ## The text -/

/-- The whole seconds since 0001-01-01T00:00:00Z. -/
def second (d : Date) : Int := d.timeIntervalSinceReferenceDate.floor + 730485 * 86400

def year (d : Date) : Int := yearOf (d.second / 86400)

/-- Year, month, day, hour, minute and second. -/
def fields (d : Date) : List Nat :=
  let day := (d.second / 86400 - yearStart d.year).toNat
  let time := (d.second % 86400).toNat
  [d.year.toNat, month (isLeap d.year) day, dayOfMonth (isLeap d.year) day,
    time / 3600, time / 60 % 60, time % 60]

/-- `yyyy-MM-ddTHH:mm:ssZ` -/
def iso8601 : List Field := [⟨4, ['-']⟩, ⟨2, ['-']⟩, ⟨2, ['T']⟩, ⟨2, [':']⟩, ⟨2, [':']⟩, ⟨2, ['Z']⟩]

def ISO8601Format (d : Date) : String := String.ofList (render iso8601 d.fields)

example : ISO8601Format ⟨686286005 + 9 / 10⟩ = "2022-10-01T03:00:05Z" := by decide +kernel


/-- The years that the text has room for. -/
def InEra (d : Date) : Prop := 1 ≤ d.year ∧ d.year ≤ 9999

instance (d : Date) : Decidable d.InEra := inferInstanceAs (Decidable (_ ∧ _))

/-! ## The text keeps the order of the seconds -/

theorem yearStart_lt {y y' : Int} (h : y < y') : yearStart y + 365 ≤ yearStart y' := by
  unfold yearStart
  omega

theorem yearStart_succ (y : Int) : yearStart (y + 1) ≤ yearStart y + 366 := by
  unfold yearStart
  omega

/-- A count of whole cycles of `k` years, a year later: the last year of a cycle ends it. -/
theorem cycles_succ {k q m : Int} (hk : 0 < k) (hm : 0 ≤ m) (hlt : m < k) :
    (k * q + m + 1) / k = q + if m + 1 = k then 1 else 0 := by
  rw [show k * q + m + 1 = m + 1 + k * q by omega, Int.add_mul_ediv_left _ _ (by omega)]
  split
  next h => rw [h, Int.ediv_self (by omega), Int.add_comm]
  · rw [Int.ediv_eq_zero_of_lt (by omega) (by omega), Int.add_comm]

theorem cycles {k q m : Int} (hk : 0 < k) (hm : 0 ≤ m) (hlt : m < k) : (k * q + m) / k = q := by
  rw [Int.add_comm, Int.add_mul_ediv_left _ _ (by omega), Int.ediv_eq_zero_of_lt hm hlt, Int.zero_add]

/-- A day is in its year. -/
theorem yearOf_spec (day : Int) : yearStart (yearOf day) ≤ day ∧ day < yearStart (yearOf day + 1) := by
  unfold yearOf
  simp only
  generalize ha : day / 146097 = a
  generalize hr : day % 146097 = r
  generalize hb : min (r / 36524) 3 = b
  generalize hr' : r - b * 36524 = r'
  generalize hc : r' / 1461 = c
  generalize hr'' : r' % 1461 = r''
  generalize he : min (r'' / 365) 3 = e
  have hb' : 0 ≤ b ∧ b ≤ 3 := by omega
  have he' : 0 ≤ e ∧ e ≤ 3 := by omega
  have hc' : 0 ≤ c ∧ c ≤ 24 := by omega
  have hd : day = 146097 * a + 36524 * b + 1461 * c + r'' := by omega
  have hl : 365 * e ≤ r'' ∧ (e < 3 → r'' < 365 * e + 365) ∧ r'' < 1461 := by omega
  have hl' : b < 3 → c = 24 → r'' < 1460 := by omega
  unfold yearStart
  have y₄ : 400 * a + 100 * b + 4 * c + e = 4 * (100 * a + 25 * b + c) + e := by omega
  have y₁₀₀ : 400 * a + 100 * b + 4 * c + e = 100 * (4 * a + b) + (4 * c + e) := by omega
  have y₄₀₀ : 400 * a + 100 * b + 4 * c + e = 400 * a + (100 * b + 4 * c + e) := by omega
  generalize 400 * a + 100 * b + 4 * c + e = y at *
  rw [Int.add_sub_cancel, Int.add_sub_cancel]
  constructor
  · have h₄ := cycles (k := 4) (q := 100 * a + 25 * b + c) (by decide) he'.1 (by omega)
    have h₁₀₀ := cycles (k := 100) (q := 4 * a + b) (m := 4 * c + e) (by decide) (by omega) (by omega)
    have h₄₀₀ := cycles (k := 400) (q := a) (m := 100 * b + 4 * c + e) (by decide) (by omega) (by omega)
    rw [← y₄] at h₄
    rw [← y₁₀₀] at h₁₀₀
    rw [← y₄₀₀] at h₄₀₀
    rw [h₄, h₁₀₀, h₄₀₀]
    omega
  · have h₄ := cycles_succ (k := 4) (q := 100 * a + 25 * b + c) (by decide) he'.1 (by omega)
    have h₁₀₀ := cycles_succ (k := 100) (q := 4 * a + b) (m := 4 * c + e) (by decide) (by omega) (by omega)
    have h₄₀₀ := cycles_succ (k := 400) (q := a) (m := 100 * b + 4 * c + e) (by decide) (by omega) (by omega)
    rw [← y₄] at h₄
    rw [← y₁₀₀] at h₁₀₀
    rw [← y₄₀₀] at h₄₀₀
    rw [h₄, h₁₀₀, h₄₀₀]
    split <;> split <;> split <;> omega

theorem yearOf_mono {day day' : Int} (h : day ≤ day') : yearOf day ≤ yearOf day' := by
  by_contra hlt
  have hd := (yearOf_spec day).1
  have hd' := (yearOf_spec day').2
  rcases Int.lt_or_eq_of_le (show yearOf day' + 1 ≤ yearOf day by omega) with hy | hy
  · have := yearStart_lt hy
    omega
  · rw [hy] at hd'
    omega

/-- A month starts before its days. -/
theorem month_spec : ∀ leap : Bool, ∀ day < 366, (monthStarts leap).getD (month leap day - 1) 0 ≤ day ∧
    month leap day < 100 ∧ dayOfMonth leap day < 100 := by
  decide +kernel

theorem month_mono (leap : Bool) {day day' : Nat} (h : day ≤ day') : month leap day ≤ month leap day' :=
  List.countP_mono_left fun s _ hs => by
    simp only [decide_eq_true_eq] at hs ⊢
    omega

/-- The day of the year of an instant. -/
theorem day_lt (d : Date) :
    d.second / 86400 - yearStart d.year < 366 ∧ 0 ≤ d.second / 86400 - yearStart d.year := by
  have h := yearOf_spec (d.second / 86400)
  have := yearStart_succ (yearOf (d.second / 86400))
  unfold year
  omega

theorem fits (d : Date) (h : d.InEra) : Fits iso8601 d.fields := by
  have hd := d.day_lt
  have hm := month_spec (isLeap d.year) (d.second / 86400 - yearStart d.year).toNat (by omega)
  have hy := h.2
  refine .cons ?_ (.cons hm.2.1 (.cons hm.2.2 (.cons ?_ (.cons ?_ (.cons ?_ .nil)))))
  · show d.year.toNat < 10000
    omega
  · show (d.second % 86400).toNat / 3600 < 100
    omega
  · show (d.second % 86400).toNat / 60 % 60 < 100
    omega
  · show (d.second % 86400).toNat % 60 < 100
    omega

/-- A later second has later fields, the first that differs. -/
theorem fields_lt {d d' : Date} (he : d.InEra) (h : d.second < d'.second) : d.fields < d'.fields := by
  have hd := d.day_lt
  have hd' := d'.day_lt
  have hy : d.year ≤ d'.year := yearOf_mono (by omega)
  have hy₁ := he.1
  unfold fields
  simp only
  rcases Int.lt_or_eq_of_le hy with hy | hy
  · exact .rel (by omega)
  · rw [← hy] at hd' ⊢
    refine .cons ?_
    generalize yearStart d.year = start at *
    generalize hi : (d.second / 86400 - start).toNat = day at *
    generalize hi' : (d'.second / 86400 - start).toNat = day' at *
    have hle : day ≤ day' := by omega
    rcases Nat.lt_or_eq_of_le (month_mono (isLeap d.year) hle) with hm | hm
    · exact .rel hm
    · have hs := (month_spec (isLeap d.year) day (by omega)).1
      rw [dayOfMonth, dayOfMonth, ← hm]
      refine .cons ?_
      rcases Nat.lt_or_eq_of_le hle with hlt | rfl
      · exact .rel (by omega)
      · refine .cons ?_
        generalize ht : (d.second % 86400).toNat = time
        generalize ht' : (d'.second % 86400).toNat = time'
        have hlt : time < time' := by omega
        rcases Nat.lt_or_eq_of_le (Nat.div_le_div_right (c := 3600) (Nat.le_of_lt hlt)) with hh | hh
        · exact .rel hh
        · rw [hh]
          refine .cons ?_
          rcases Nat.lt_or_eq_of_le (show time / 60 % 60 ≤ time' / 60 % 60 by omega) with hn | hn
          · exact .rel hn
          · rw [hn]
            exact .cons (.rel (by omega))

theorem ISO8601Format_lt {d d' : Date} (he : d.InEra) (he' : d'.InEra) (h : d.second < d'.second) :
    d.ISO8601Format < d'.ISO8601Format := by
  rw [String.lt_iff_toList_lt, ISO8601Format, ISO8601Format, String.toList_ofList, String.toList_ofList]
  exact render_lt (d.fits he) (d'.fits he') (fields_lt he h)

/-- Texts compare as the seconds that they name. -/
theorem ISO8601Format_lt_iff {d d' : Date} (he : d.InEra) (he' : d'.InEra) :
    d.ISO8601Format < d'.ISO8601Format ↔ d.second < d'.second := by
  constructor
  · intro h
    by_contra hn
    rcases Int.lt_or_eq_of_le (Int.not_lt.mp hn) with hs | hs
    · exact lt_asymm h (ISO8601Format_lt he' he hs)
    · have hf : d.ISO8601Format = d'.ISO8601Format := by
        unfold ISO8601Format fields year
        rw [hs]
      exact lt_irrefl _ (hf ▸ h)
  · exact ISO8601Format_lt he he'

end Date

end BlindBoard
