import Mathlib.Data.List.GetD
import Mathlib.Order.Basic
import Mathlib.Tactic.SplitIfs

/-!
# Dates of the Gregorian calendar

A date is kept as the number of days since the first day of the year 1. Its year comes from the
cycles of 400, 100 and 4 years and single years, its month from a table of the days before each
month. The number can be computed back from the parts.
-/

namespace OpsScripts.Calendar

/-- The parts of a date. -/
structure Parts where
  year : Nat
  month : Nat
  day : Nat
  deriving DecidableEq

/-- The days before each month, and those of the year. -/
def daysToMonth (leapYear : Bool) : List Nat :=
  if leapYear then [0, 31, 60, 91, 121, 152, 182, 213, 244, 274, 305, 335, 366]
  else [0, 31, 59, 90, 120, 151, 181, 212, 243, 273, 304, 334, 365]

/-- The complete cycles of a date, and the days that are left: 400, 100 and 4 years, and years. -/
structure Cycles where
  y400 : Nat
  y100 : Nat
  y4 : Nat
  y1 : Nat
  rest : Nat

/-- The cycles of a number of days; the last cycle of four is a day longer. -/
def cycles (n : Nat) : Cycles :=
  let y400 := n / 146097
  let n := n - y400 * 146097
  let y100 := min (n / 36524) 3
  let n := n - y100 * 36524
  let y4 := n / 1461
  let n := n - y4 * 1461
  let y1 := min (n / 365) 3
  ⟨y400, y100, y4, y1, n - y1 * 365⟩

/-- The year of some cycles. -/
def Cycles.year (c : Cycles) : Nat := c.y400 * 400 + c.y100 * 100 + c.y4 * 4 + c.y1 + 1

/-- The year of the cycles has 366 days. -/
def Cycles.leapYear (c : Cycles) : Bool := c.y1 = 3 && (c.y4 ≠ 24 || c.y100 = 3)

/-- The month of a day of a year. -/
def month (leapYear : Bool) (rest : Nat) : Nat :=
  (daysToMonth leapYear).tail.findIdx (fun days => rest < days) + 1

/-- The parts of a number of days. -/
def parts (n : Nat) : Parts :=
  let c := cycles n
  let m := month c.leapYear c.rest
  ⟨c.year, m, c.rest - (daysToMonth c.leapYear).getD (m - 1) 0 + 1⟩

/-- A year of 366 days. -/
def isLeapYear (year : Nat) : Bool := year % 4 = 0 && (year % 100 ≠ 0 || year % 400 = 0)

/-- The number of days before a date. -/
def Parts.number (p : Parts) : Nat :=
  let y := p.year - 1
  y * 365 + y / 4 - y / 100 + y / 400 +
    (daysToMonth (isLeapYear p.year)).getD (p.month - 1) 0 + (p.day - 1)

/-- The cycles of a date, in their bounds. -/
structure Cycles.Sound (c : Cycles) (n : Nat) : Prop where
  total : c.y400 * 146097 + c.y100 * 36524 + c.y4 * 1461 + c.y1 * 365 + c.rest = n
  y100_le : c.y100 ≤ 3
  y4_le : c.y4 ≤ 24
  y1_le : c.y1 ≤ 3
  rest_lt : c.rest < if c.leapYear then 366 else 365

theorem Cycles.leapYear_iff (c : Cycles) :
    c.leapYear = true ↔ c.y1 = 3 ∧ (c.y4 ≠ 24 ∨ c.y100 = 3) := by
  rw [leapYear, Bool.and_eq_true, Bool.or_eq_true, decide_eq_true_eq, decide_eq_true_eq,
    decide_eq_true_eq]

theorem sound_cycles (n : Nat) : (cycles n).Sound n := by
  constructor
  · simp only [cycles]
    omega
  · exact Nat.min_le_right _ _
  · simp only [cycles]
    omega
  · exact Nat.min_le_right _ _
  · by_cases h : (cycles n).leapYear = true
    · rw [if_pos h]
      simp only [cycles]
      omega
    · rw [if_neg h]
      rw [Cycles.leapYear_iff] at h
      simp only [cycles] at h ⊢
      omega

/-- The first entry of a table above a number, and the entry before it. -/
theorem findIdx_table {first rest : Nat} (table : List Nat) (hfirst : first ≤ rest)
    (hlast : ∃ days ∈ table, rest < days) :
    table.findIdx (fun days => rest < days) < table.length ∧
      (first :: table).getD (table.findIdx fun days => rest < days) 0 ≤ rest ∧
      rest < table.getD (table.findIdx fun days => rest < days) 0 := by
  have hlt : table.findIdx (fun days => rest < days) < table.length := by
    rw [List.findIdx_lt_length]
    obtain ⟨days, hdays, hrest⟩ := hlast
    exact ⟨days, hdays, decide_eq_true hrest⟩
  refine ⟨hlt, ?_, ?_⟩
  · cases hindex : table.findIdx fun days => rest < days with
    | zero => exact hfirst
    | succ k =>
      have hk : k < table.findIdx fun days => rest < days := hindex ▸ Nat.lt_succ_self k
      have hbelow := List.not_of_lt_findIdx hk
      rw [decide_eq_false_iff_not, Nat.not_lt] at hbelow
      rwa [List.getD_cons_succ, List.getD_eq_getElem _ _ (Nat.lt_trans hk hlt)]
  · have habove := List.findIdx_getElem (w := hlt)
    rw [decide_eq_true_eq] at habove
    rwa [List.getD_eq_getElem _ _ hlt]

/-- A day of a year comes in its month. -/
theorem month_spec {leapYear : Bool} {rest : Nat} (h : rest < if leapYear then 366 else 365) :
    month leapYear rest ≤ 12 ∧ (daysToMonth leapYear).getD (month leapYear rest - 1) 0 ≤ rest ∧
      rest < (daysToMonth leapYear).getD (month leapYear rest) 0 := by
  cases leapYear with
  | false =>
    obtain ⟨hlt, hbelow, habove⟩ := findIdx_table (daysToMonth false).tail
      (Nat.zero_le rest) ⟨365, by decide, h⟩
    exact ⟨hlt, hbelow, habove⟩
  | true =>
    obtain ⟨hlt, hbelow, habove⟩ := findIdx_table (daysToMonth true).tail
      (Nat.zero_le rest) ⟨366, by decide, h⟩
    exact ⟨hlt, hbelow, habove⟩

/-- The year of the cycles has a day more exactly if it is divisible accordingly. -/
theorem Cycles.Sound.isLeapYear_year {c : Cycles} {n : Nat} (h : c.Sound n) :
    isLeapYear c.year = c.leapYear := by
  obtain ⟨-, h100, h4, h1, -⟩ := h
  rw [Bool.eq_iff_iff, c.leapYear_iff, isLeapYear, Bool.and_eq_true, Bool.or_eq_true,
    decide_eq_true_eq, decide_eq_true_eq, decide_eq_true_eq, year]
  omega

/-- The number comes back from the parts. -/
theorem number_parts (n : Nat) : (parts n).number = n := by
  have hsound := sound_cycles n
  obtain ⟨-, hle, -⟩ := month_spec hsound.rest_lt
  obtain ⟨htotal, h100, h4, h1, -⟩ := id hsound
  simp only [parts, Parts.number, hsound.isLeapYear_year, Nat.add_sub_cancel]
  have hyears : ∀ c : Cycles, c.y100 ≤ 3 → c.y4 ≤ 24 → c.y1 ≤ 3 →
      (c.year - 1) * 365 + (c.year - 1) / 4 - (c.year - 1) / 100 + (c.year - 1) / 400 =
        c.y400 * 146097 + c.y100 * 36524 + c.y4 * 1461 + c.y1 * 365 := by
    intro c h100 h4 h1
    rw [Cycles.year, Nat.add_sub_cancel]
    omega
  rw [hyears _ h100 h4 h1, Nat.add_assoc, Nat.add_sub_of_le hle]
  exact htotal

/-- A month has at most 31 days. -/
theorem parts_le (n : Nat) : (parts n).month ≤ 12 ∧ (parts n).day ≤ 31 := by
  obtain ⟨hmonth, -, hlt⟩ := month_spec (sound_cycles n).rest_lt
  refine ⟨hmonth, ?_⟩
  have htable : ∀ leapYear, ∀ k < 12, (daysToMonth leapYear).getD (k + 1) 0 ≤
      (daysToMonth leapYear).getD k 0 + 31 := by decide
  have hdays := htable (cycles n).leapYear (month (cycles n).leapYear (cycles n).rest - 1)
    (by omega)
  have hsucc : month (cycles n).leapYear (cycles n).rest - 1 + 1 =
      month (cycles n).leapYear (cycles n).rest := Nat.succ_pred_eq_of_pos (Nat.succ_pos _)
  rw [hsucc] at hdays
  change (cycles n).rest - _ + 1 ≤ 31
  omega

/-- The years of four digits. -/
theorem year_parts_lt {n : Nat} (h : n < 3652059) : (parts n).year < 10000 := by
  obtain ⟨htotal, h100, h4, h1, -⟩ := sound_cycles n
  change (cycles n).year < 10000
  rw [Cycles.year]
  omega

/-- Different dates have different parts. -/
theorem parts_injective : Function.Injective parts :=
  Function.LeftInverse.injective (g := Parts.number) number_parts

end OpsScripts.Calendar
