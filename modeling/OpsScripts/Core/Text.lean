import Mathlib.Data.List.Basic
import Mathlib.Data.List.Infix
import Mathlib.Data.List.TakeWhile

/-!
# Text, case and white space

The scripts work on strings whose characters are compared with or without
case. A `Culture` is the case mapping of the host; only its values on ASCII
are fixed, so every statement holds for whatever mapping the host uses on
other letters. Files are lists of lines.
-/

namespace OpsScripts

/-- Text as a list of characters. -/
abbrev Text := List Char

instance : Coe String Text := ⟨String.toList⟩

/-- A statement about the letters of a text is decided by going through the text, not through
all characters. -/
instance (priority := high) decidableLetters (t : Text) (p : Char → Prop) [DecidablePred p] :
    Decidable (∀ c ∈ t, p c) :=
  List.decidableBAll p t

/-- The case mapping of the host, fixed on ASCII only. -/
class Culture where
  lower : Char → Char
  upper : Char → Char
  lower_ascii : ∀ c : Char, c.val < 128 → lower c = c.toLower
  upper_ascii : ∀ c : Char, c.val < 128 → upper c = c.toUpper

/-- The mapping that changes ASCII letters only. -/
@[reducible] def Culture.ascii : Culture where
  lower := Char.toLower
  upper := Char.toUpper
  lower_ascii _ _ := rfl
  upper_ascii _ _ := rfl

/-! ## Case -/

section Case

variable [Culture]

/-- `ToLower()`. -/
def toLower (t : Text) : Text := t.map Culture.lower

/-- `ToUpper()`. -/
def toUpper (t : Text) : Text := t.map Culture.upper

/-- Equality of strings without case, the `-eq` and `-contains` of PowerShell. -/
def eqIgnoreCase (s t : Text) : Bool := toLower s == toLower t

@[simp] theorem eqIgnoreCase_iff {s t : Text} :
    eqIgnoreCase s t = true ↔ toLower s = toLower t := by
  simp [eqIgnoreCase]

theorem eqIgnoreCase_self (s : Text) : eqIgnoreCase s s = true := by simp

@[simp] theorem toLower_append (s t : Text) : toLower (s ++ t) = toLower s ++ toLower t := by
  simp [toLower]

@[simp] theorem length_toLower (t : Text) : (toLower t).length = t.length := by
  rw [toLower, List.length_map]

/-- A text of ASCII characters. -/
def isAscii (t : Text) : Bool := t.all fun c => decide (c.val < 128)

/-- On ASCII the host has no say in the comparison. -/
theorem eqIgnoreCase_ascii {s t : Text} (hs : isAscii s = true) (ht : isAscii t = true) :
    eqIgnoreCase s t = (s.map Char.toLower == t.map Char.toLower) := by
  have hlower : ∀ u : Text, isAscii u = true → toLower u = u.map Char.toLower := by
    intro u hu
    apply List.map_congr_left
    intro c hc
    exact Culture.lower_ascii c (of_decide_eq_true (List.all_eq_true.mp hu c hc))
  rw [eqIgnoreCase, hlower s hs, hlower t ht]

/-- Texts that end in different characters differ, also without case. -/
theorem eqIgnoreCase_of_getLast {s t : Text} {c d : Char} (hs : s.getLast? = some c)
    (ht : t.getLast? = some d) (hcd : Culture.lower c ≠ Culture.lower d) :
    eqIgnoreCase s t = false := by
  rw [← Bool.not_eq_true, eqIgnoreCase_iff]
  intro he
  have hl := congrArg List.getLast? he
  simp only [toLower, List.getLast?_map, hs, ht, Option.map_some, Option.some.injEq] at hl
  exact hcd hl

end Case

/-! ## White space -/

/-- `Char.IsWhiteSpace`, the characters that `Trim()` and `\s` accept. -/
def isSpace (c : Char) : Bool :=
  let n := c.val.toNat
  (9 ≤ n && n ≤ 13) || n == 0x20 || n == 0x85 || n == 0xA0 || n == 0x1680 ||
    (0x2000 ≤ n && n ≤ 0x200A) || n == 0x2028 || n == 0x2029 || n == 0x202F ||
    n == 0x205F || n == 0x3000

/-- `Trim()`. -/
def trim (t : Text) : Text :=
  ((t.dropWhile isSpace).reverse.dropWhile isSpace).reverse

/-- `-replace "\s+"`: every run of white space is removed. -/
def removeSpaces (t : Text) : Text := t.filter fun c => !isSpace c

/-! ## Trimming -/

/-- Both ends of a text are removed as far as a class of characters goes. -/
def trimBy (p : Char → Bool) (t : Text) : Text :=
  ((t.dropWhile p).reverse.dropWhile p).reverse

section Trimming

variable {p q : Char → Bool} {t : Text}

/-- Trimming stops at once on a text whose ends stay. -/
theorem trim_ends (hhead : ∀ c ∈ t.head?, p c = false) (hlast : ∀ c ∈ t.getLast?, p c = false) :
    trimBy p t = t := by
  have hstop : ∀ s : Text, (∀ c ∈ s.head?, p c = false) → s.dropWhile p = s := by
    intro s hs
    cases s with
    | nil => rfl
    | cons c s =>
      have hc : p c = false := hs c rfl
      rw [List.dropWhile_cons, hc]
      rfl
  rw [trimBy, hstop t hhead, hstop t.reverse (by rwa [List.head?_reverse]), List.reverse_reverse]

/-- What is removed belongs to the class. -/
theorem exists_eq_trimBy (p : Char → Bool) (t : Text) :
    ∃ a b, t = a ++ trimBy p t ++ b ∧ (∀ c ∈ a, p c = true) ∧ ∀ c ∈ b, p c = true := by
  have hsplit : ∀ s : Text, s = s.takeWhile p ++ s.dropWhile p :=
    fun s => List.takeWhile_append_dropWhile.symm
  refine ⟨t.takeWhile p, ((t.dropWhile p).reverse.takeWhile p).reverse, ?_,
    fun c hc => List.mem_takeWhile_imp hc,
    fun c hc => List.mem_takeWhile_imp (List.mem_reverse.mp hc)⟩
  rw [trimBy, List.append_assoc, ← List.reverse_append, ← hsplit, List.reverse_reverse, ← hsplit]

/-- The ends that are left do not belong to the class. -/
theorem ends_trimBy (p : Char → Bool) (t : Text) :
    (∀ c ∈ (trimBy p t).head?, p c = false) ∧ ∀ c ∈ (trimBy p t).getLast?, p c = false := by
  have hhead : ∀ s : Text, ∀ c ∈ (s.dropWhile p).head?, p c = false := by
    intro s c hc
    have hnot := List.head?_dropWhile_not p s
    rw [hc] at hnot
    simpa using hnot
  constructor
  · intro c hc
    obtain ⟨u, hu⟩ := List.dropWhile_suffix p (l := (t.dropWhile p).reverse)
    have hbegins : t.dropWhile p = trimBy p t ++ u.reverse := by
      rw [trimBy, ← List.reverse_append, hu, List.reverse_reverse]
    refine hhead t c ?_
    rw [hbegins, List.head?_append, Option.mem_def.mp hc]
    rfl
  · intro c hc
    rw [trimBy, List.getLast?_reverse] at hc
    exact hhead _ c hc

/-- Characters of the class do not count at the ends. -/
theorem trimBy_append {a b : Text} (ha : ∀ c ∈ a, p c = true) (hb : ∀ c ∈ b, p c = true) :
    trimBy p (a ++ t ++ b) = trimBy p t := by
  rw [trimBy, trimBy, List.append_assoc, List.dropWhile_append_of_pos ha, List.dropWhile_append]
  split_ifs with hempty
  · have hdrop : b.dropWhile p = [] := List.dropWhile_eq_nil_iff.mpr hb
    rw [hdrop, List.isEmpty_iff.mp hempty]
  · rw [List.reverse_append,
      List.dropWhile_append_of_pos fun c hc => hb c (List.mem_reverse.mp hc)]

/-- A wider class removes the same exactly if it does not go on at the ends that are left. -/
theorem trimBy_eq_trimBy_iff (hpq : ∀ c, p c = true → q c = true) (t : Text) :
    trimBy q t = trimBy p t ↔
      (∀ c ∈ (trimBy p t).head?, q c = false) ∧ ∀ c ∈ (trimBy p t).getLast?, q c = false := by
  constructor
  · intro h
    rw [← h]
    exact ends_trimBy q t
  · rintro ⟨hhead, hlast⟩
    obtain ⟨a, b, ht, ha, hb⟩ := exists_eq_trimBy p t
    conv_lhs => rw [ht]
    rw [trimBy_append (fun c hc => hpq c (ha c hc)) fun c hc => hpq c (hb c hc),
      trim_ends hhead hlast]

end Trimming

/-! ## Replacement -/

/-- The text `s` occurs in `t`. -/
def contains (s t : Text) : Bool := t.tails.any s.isPrefixOf

/-- Replace the occurrences of a text from left to right, in at most `n` steps. -/
def replaceFrom (old new : Text) : Nat → Text → Text
  | 0, t => t
  | _ + 1, [] => []
  | n + 1, c :: cs =>
    if old.isPrefixOf (c :: cs) then new ++ replaceFrom old new n ((c :: cs).drop old.length)
    else c :: replaceFrom old new n cs

/-- `Replace(old, new)` for a text `old` that is not empty. -/
def replace (old new t : Text) : Text := replaceFrom old new t.length t

/-! ## Pieces between separators -/

/-- The piece behind the last separator, `Split(sep)[-1]`. -/
def lastPiece (sep : Char) (t : Text) : Text := (t.splitOn sep).getLast?.getD []

/-- A text without separators is its own last piece. -/
theorem lastPiece_of_notMem {sep : Char} {t : Text} (h : sep ∉ t) : lastPiece sep t = t := by
  simp [lastPiece, List.splitOn_eq_singleton h]

/-- Everything up to a separator is irrelevant to the last piece. -/
theorem lastPiece_append_cons (sep : Char) (s t : Text) :
    lastPiece sep (s ++ sep :: t) = lastPiece sep t := by
  have hne : t.splitOn sep ≠ [] := List.splitOn_ne_nil sep t
  rw [lastPiece, List.splitOn_append_cons_self, List.getLast?_append_of_ne_nil _ hne, lastPiece]

/-- A text with separators splits at its last one. -/
theorem exists_last_split {sep : Char} {t : Text} (h : sep ∈ t) :
    ∃ s u, t = s ++ sep :: u ∧ sep ∉ u := by
  induction t with
  | nil => cases h
  | cons c t ih =>
    by_cases ht : sep ∈ t
    · obtain ⟨s, u, rfl, hu⟩ := ih ht
      exact ⟨c :: s, u, rfl, hu⟩
    · have hc : sep = c := (List.mem_cons.mp h).resolve_right ht
      exact ⟨[], t, by rw [hc, List.nil_append], ht⟩

/-- No separator is left behind the last one. -/
theorem notMem_lastPiece (sep : Char) (t : Text) : sep ∉ lastPiece sep t := by
  by_cases h : sep ∈ t
  · obtain ⟨s, u, rfl, hu⟩ := exists_last_split h
    rwa [lastPiece_append_cons, lastPiece_of_notMem hu]
  · rwa [lastPiece_of_notMem h]

/-- A text either has no separator or splits at its first one. -/
theorem notMem_or_split (sep : Char) (t : Text) :
    sep ∉ t ∨ ∃ s u, t = s ++ sep :: u ∧ sep ∉ s := by
  by_cases h : sep ∈ t
  · obtain ⟨s, u, rfl, hs⟩ := List.eq_append_cons_of_mem h
    exact Or.inr ⟨s, u, rfl, hs⟩
  · exact Or.inl h

/-- Induction over the pieces of a text, from its last piece on. -/
theorem pieces_induction (sep : Char) {motive : Text → Prop}
    (last : ∀ t, sep ∉ t → motive t)
    (cons : ∀ s u, sep ∉ s → motive u → motive (s ++ sep :: u)) (t : Text) : motive t := by
  induction hn : t.length using Nat.strong_induction_on generalizing t with
  | _ n ih =>
    rcases notMem_or_split sep t with hnot | ⟨s, u, rfl, hs⟩
    · exact last t hnot
    · refine cons s u hs (ih u.length ?_ u rfl)
      rw [← hn, List.length_append, List.length_cons]
      omega

/-- The last piece ends as the whole text does, unless that ends in a separator. -/
theorem getLast?_lastPiece {sep c : Char} {t : Text} (h : t.getLast? = some c) (hc : c ≠ sep) :
    (lastPiece sep t).getLast? = some c := by
  induction t using pieces_induction sep with
  | last t hnot => rwa [lastPiece_of_notMem hnot]
  | cons s u _ ih =>
    rw [lastPiece_append_cons]
    have hu : u ≠ [] := by
      rintro rfl
      rw [List.getLast?_append_of_ne_nil _ (List.cons_ne_nil _ _)] at h
      exact hc (Option.some.inj h).symm
    rw [List.getLast?_append_of_ne_nil _ (List.cons_ne_nil _ _),
      List.getLast?_cons_of_ne_nil hu] at h
    exact ih h

/-- The first piece ends at the first separator. -/
theorem headD_splitOn {sep : Char} {s u : Text} (hs : sep ∉ s) :
    ((s ++ sep :: u).splitOn sep).headD [] = s := by
  rw [List.splitOn_append_cons_self_of_not_mem hs]
  rfl

theorem headD_splitOn_of_notMem {sep : Char} {s : Text} (hs : sep ∉ s) :
    (s.splitOn sep).headD [] = s := by
  rw [List.splitOn_eq_singleton hs]
  rfl

/-- The pieces have no separators. -/
theorem notMem_of_mem_splitOn {sep : Char} {t piece : Text} (h : piece ∈ t.splitOn sep) :
    sep ∉ piece := by
  induction t using pieces_induction sep with
  | last t hnot =>
    rw [List.splitOn_eq_singleton hnot] at h
    rwa [List.mem_singleton.mp h]
  | cons s u hs ih =>
    rw [List.splitOn_append_cons_self, List.splitOn_eq_singleton hs] at h
    rcases List.mem_cons.mp h with rfl | h
    · exact hs
    · exact ih h

/-- There is one piece more than there are separators. -/
theorem length_splitOn (sep : Char) (t : Text) : (t.splitOn sep).length = t.count sep + 1 := by
  induction t using pieces_induction sep with
  | last t hnot =>
    rw [List.splitOn_eq_singleton hnot, List.count_eq_zero_of_not_mem hnot]
    rfl
  | cons s u hs ih =>
    rw [List.splitOn_append_cons_self, List.splitOn_eq_singleton hs, List.length_append, ih,
      List.count_append, List.count_eq_zero_of_not_mem hs, List.count_cons_self,
      List.length_singleton]
    omega

end OpsScripts
