import OpsScripts.Core.Wildcard
import Mathlib.Data.List.Lex

/-!
# Numbers and times as texts

Counters are stored as decimal texts, and times in the format `yyyy.MM.dd HH:mm`.
The format sorts as text in the order of time, and none of its characters has a
meaning in a wildcard pattern or a second case. Moments are printed in the form
`YYYY-MM-DDThh:mm:ss`.
-/

namespace OpsScripts

/-- The last decimal digit of a number. -/
def digit (n : Nat) : Char := Char.ofNat (48 + n % 10)

/-- `ToString()` of a number. -/
def decimal (n : Nat) : Text :=
  if n < 10 then [digit n] else decimal (n / 10) ++ [digit n]
decreasing_by omega

/-- Digits compare as the numbers they stand for. -/
theorem digit_lt_digit (m n : Nat) : digit m < digit n ↔ m % 10 < n % 10 := by
  have hall : ∀ a < 10, ∀ b < 10, Char.ofNat (48 + a) < Char.ofNat (48 + b) ↔ a < b := by decide
  exact hall _ (Nat.mod_lt _ (by decide)) _ (Nat.mod_lt _ (by decide))

theorem digit_eq_digit (m n : Nat) : digit m = digit n ↔ m % 10 = n % 10 := by
  have hall : ∀ a < 10, ∀ b < 10, Char.ofNat (48 + a) = Char.ofNat (48 + b) ↔ a = b := by decide
  exact hall _ (Nat.mod_lt _ (by decide)) _ (Nat.mod_lt _ (by decide))

theorem decimal_ne_nil (n : Nat) : decimal n ≠ [] := by
  rw [decimal]
  split <;> simp

/-- Different numbers have different texts. -/
theorem decimal_injective : Function.Injective decimal := by
  intro m
  induction m using Nat.strong_induction_on with
  | _ m ih =>
    intro n h
    rw [decimal, decimal.eq_def n] at h
    by_cases hm : m < 10 <;> by_cases hn : n < 10
    · rw [if_pos hm, if_pos hn] at h
      have := (digit_eq_digit m n).mp (List.cons.inj h).1
      omega
    · rw [if_pos hm, if_neg hn] at h
      have hlen := congrArg List.length h
      exact absurd (by simpa using hlen) (decimal_ne_nil (n / 10))
    · rw [if_neg hm, if_pos hn] at h
      have hlen := congrArg List.length h
      exact absurd (by simpa using hlen) (decimal_ne_nil (m / 10))
    · rw [if_neg hm, if_neg hn] at h
      obtain ⟨hinit, hlast⟩ := List.append_inj' h rfl
      have hdiv := ih (m / 10) (by omega) hinit
      have hmod := (digit_eq_digit m n).mp (List.cons.inj hlast).1
      omega

/-- A number other than zero is not smaller than one, as text. -/
theorem not_decimal_lt_one {n : Nat} (hn : n ≠ 0) : ¬ decimal n < ['1'] := by
  have hhead : ∀ n, n ≠ 0 → ∃ m cs, m ≠ 0 ∧ m < 10 ∧ decimal n = digit m :: cs := by
    intro n
    induction n using Nat.strong_induction_on with
    | _ n ih =>
      intro hn
      rw [decimal]
      by_cases hlt : n < 10
      · exact ⟨n, [], hn, hlt, if_pos hlt⟩
      · obtain ⟨m, cs, hm, hm', hcs⟩ := ih (n / 10) (by omega) (by omega)
        exact ⟨m, cs ++ [digit n], hm, hm', by rw [if_neg hlt, hcs]; rfl⟩
  obtain ⟨m, cs, hm, hlt, hcs⟩ := hhead n hn
  rw [hcs, show '1' = digit 1 from rfl, List.cons_lt_cons_iff, digit_lt_digit]
  intro h
  rcases h with h | ⟨-, h⟩
  · omega
  · exact List.not_lt_nil _ h

/-! ## Times -/

/-- A time, to the minute. -/
structure DateTime where
  year : Fin 10000
  month : Fin 13
  day : Fin 32
  hour : Fin 24
  minute : Fin 60
  deriving DecidableEq

namespace DateTime

/-- The time with the given numbers, each within its range. -/
def ofNat (year month day hour minute : Nat) : DateTime :=
  ⟨Fin.ofNat _ year, Fin.ofNat _ month, Fin.ofNat _ day, Fin.ofNat _ hour, Fin.ofNat _ minute⟩

/-- Two decimal digits. -/
def two (n : Nat) : Text := [digit (n / 10), digit n]

/-- A character that is no digit is not in a two digit number. -/
theorem notMem_two (n : Nat) {c : Char} (hc : c ∉ "0123456789".toList) : c ∉ two n := by
  have hdigit : ∀ k, digit k ∈ "0123456789".toList := by
    intro k
    have hall : ∀ a < 10, Char.ofNat (48 + a) ∈ "0123456789".toList := by decide
    exact hall _ (Nat.mod_lt _ (by decide))
  intro h
  rw [two, List.mem_pair] at h
  obtain rfl | rfl := h
  · exact hc (hdigit _)
  · exact hc (hdigit _)

/-- `ToString('yyyy.MM.dd HH:mm')`. -/
def format (d : DateTime) : Text :=
  two (d.year / 100) ++ (two (d.year % 100) ++ '.' :: (two d.month ++ '.' ::
    (two d.day ++ ' ' :: (two d.hour ++ ':' :: two d.minute))))

/-- A number that orders the times. -/
def stamp (d : DateTime) : Nat :=
  (((d.year * 100 + d.month) * 100 + d.day) * 100 + d.hour) * 100 + d.minute

/-- Texts that begin with two digits compare by their numbers first. -/
theorem two_append_lt {m n : Nat} (hm : m < 100) (hn : n < 100) (s t : Text) :
    two m ++ s < two n ++ t ↔ m < n ∨ (m = n ∧ s < t) := by
  simp only [two, List.cons_append, List.nil_append, List.cons_lt_cons_iff, digit_lt_digit,
    digit_eq_digit]
  have hdiv : m = n ↔ m / 10 % 10 = n / 10 % 10 ∧ m % 10 = n % 10 := by omega
  have hlt : m < n ↔ m / 10 % 10 < n / 10 % 10 ∨
      (m / 10 % 10 = n / 10 % 10 ∧ m % 10 < n % 10) := by omega
  rw [hdiv, hlt]
  by_cases hst : s < t <;> simp only [hst, and_true, and_false, or_false]
  · omega

/-- The same separator in front changes nothing. -/
theorem cons_lt_cons_self (c : Char) (s t : Text) : c :: s < c :: t ↔ s < t := by
  simp

/-- The formatted times sort in the order of time. -/
theorem format_lt_format (a b : DateTime) : a.format < b.format ↔ a.stamp < b.stamp := by
  obtain ⟨⟨ay, hay⟩, ⟨am, ham⟩, ⟨ad, had⟩, ⟨ah, hah⟩, ⟨ai, hai⟩⟩ := a
  obtain ⟨⟨b_y, hby⟩, ⟨bm, hbm⟩, ⟨bd, hbd⟩, ⟨bh, hbh⟩, ⟨bi, hbi⟩⟩ := b
  have hlast := two_append_lt (m := ai) (n := bi) (by omega) (by omega) [] []
  simp only [List.append_nil, List.lt_irrefl, and_false, or_false] at hlast
  simp only [format, stamp]
  rw [two_append_lt (by omega) (by omega), two_append_lt (by omega) (by omega),
    cons_lt_cons_self, two_append_lt (by omega) (by omega), cons_lt_cons_self,
    two_append_lt (by omega) (by omega), cons_lt_cons_self,
    two_append_lt (by omega) (by omega), cons_lt_cons_self, hlast]
  omega

/-- Different times have different numbers. -/
theorem stamp_injective : Function.Injective stamp := by
  rintro ⟨⟨ay, _⟩, ⟨am, ham⟩, ⟨ad, had⟩, ⟨ah, hah⟩, ⟨ai, hai⟩⟩
    ⟨⟨b_y, _⟩, ⟨bm, hbm⟩, ⟨bd, hbd⟩, ⟨bh, hbh⟩, ⟨bi, hbi⟩⟩ h
  simp only [stamp] at h
  simp only [mk.injEq, Fin.mk.injEq]
  omega

/-- Different times have different texts. -/
theorem format_injective : Function.Injective format := by
  intro a b h
  have hle := format_lt_format a b
  have hge := format_lt_format b a
  rw [h] at hle hge
  refine stamp_injective (Nat.le_antisymm ?_ ?_)
  · exact Nat.not_lt.mp fun hlt => List.lt_irrefl _ (hge.mpr hlt)
  · exact Nat.not_lt.mp fun hlt => List.lt_irrefl _ (hle.mpr hlt)

end DateTime

/-- A time, to the second. -/
structure Moment extends DateTime where
  second : Fin 60

namespace Moment

/-- The moment with the given number of seconds. -/
def ofNat (d : DateTime) (second : Nat) : Moment := ⟨d, Fin.ofNat _ second⟩

/-- The date and the hour, as `YYYY-MM-DDThh`. -/
def dateHour (m : Moment) : Text :=
  DateTime.two (m.year / 100) ++ (DateTime.two (m.year % 100) ++ '-' ::
    (DateTime.two m.month ++ '-' :: (DateTime.two m.day ++ 'T' :: DateTime.two m.hour)))

/-- The form `YYYY-MM-DDThh:mm:ss`. -/
def iso (m : Moment) : Text :=
  m.dateHour ++ ':' :: (DateTime.two m.minute ++ ':' :: DateTime.two m.second)

/-- The characters of a date with its hour. -/
theorem notMem_dateHour (m : Moment) {c : Char} (hc : c ∉ "0123456789-T".toList) :
    c ∉ m.dateHour := by
  have hnumber : ∀ n, c ∉ DateTime.two n := fun n =>
    DateTime.notMem_two n fun h => hc (List.mem_append_left _ h)
  have hdash : c ≠ '-' := fun h => hc (h ▸ by decide)
  have hT : c ≠ 'T' := fun h => hc (h ▸ by decide)
  simp only [dateHour, List.mem_append, List.mem_cons, not_or]
  exact ⟨hnumber _, hnumber _, hdash, hnumber _, hdash, hnumber _, hT, hnumber _⟩

end Moment

/-! ## Stable texts -/

/-- A text that is the same without case and has no wildcards. -/
def Stable [Culture] (t : Text) : Prop :=
  ∀ c ∈ t, Wildcard.isSpecial c = false ∧ Culture.lower c = c

/-- `-like` on stable texts is equality. -/
theorem like_iff_of_stable [Culture] {s t : Text} (hs : Stable s) (ht : Stable t) :
    like s t = true ↔ s = t := by
  have hlower : ∀ {u : Text}, Stable u → toLower u = u := by
    intro u hu
    exact (List.map_congr_left fun c hc => (hu c hc).2).trans (List.map_id u)
  rw [like_literal fun c hc => (ht c hc).1, eqIgnoreCase_iff, hlower hs, hlower ht]

/-- An ASCII character without a second case and without a meaning in a pattern. -/
def isStable (c : Char) : Bool :=
  !Wildcard.isSpecial c && decide (c.val < 128) && c.toLower == c

/-- On ASCII, stability does not depend on the host. -/
theorem stable_of_all [Culture] {t : Text} (h : t.all isStable = true) : Stable t := by
  intro c hc
  have hstable := List.all_eq_true.mp h c hc
  simp only [isStable, Bool.and_eq_true, Bool.not_eq_true', decide_eq_true_eq, beq_iff_eq]
    at hstable
  obtain ⟨⟨hspecial, hascii⟩, hlower⟩ := hstable
  exact ⟨hspecial, (Culture.lower_ascii c hascii).trans hlower⟩

/-- Formatted times are stable. -/
theorem stable_format [Culture] (d : DateTime) : Stable d.format := by
  have hdigit : ∀ n, isStable (digit n) = true := by
    intro n
    have hall : ∀ a < 10, isStable (Char.ofNat (48 + a)) = true := by decide
    exact hall _ (Nat.mod_lt n (by decide))
  have hmark : isStable '.' = true ∧ isStable ' ' = true ∧ isStable ':' = true := by decide
  apply stable_of_all
  simp only [DateTime.format, DateTime.two, List.all_append, List.all_cons, List.all_nil, hdigit,
    hmark, Bool.and_self]

end OpsScripts
