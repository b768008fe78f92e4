import OpsScripts.AddUser.Compare

/-!
# Exactness of the delta

The result file should hold exactly the active lines that are not lines of
the old snapshot. Three things can go wrong, since the line is used as a
pattern: another line matches it, its own copy does not, or it is no pattern
at all and an earlier outcome is used instead. The delta is exact when none of
them happens, and for lines without special letters only the first is left.
-/

namespace OpsScripts.AddUser

section Exact

variable [Culture]

/-- `IsActive` is `False`, in any case. -/
def isInactive (r : Record) : Bool := eqIgnoreCase ((r .isActive).getD []) "False"

variable (E : Engine) (org old : List Text) (rs : List Record)

/-- An active line is appended if and only if it is not one of the old lines. -/
def ExactDelta : Prop :=
  ∀ i r, rs[i]? = some r → isInactive r = false →
    (Appends E org (some old) (exportCsv rs) (i + 1) ↔ recordLine r ∉ old)

/-- A line that is new is found in the old snapshot. -/
def FalseMatch (line : Text) : Prop :=
  line ∉ old ∧ search E (some old) line = some true

/-- A line that is an old line is not found in the old snapshot. -/
def FalseMiss (line : Text) : Prop :=
  line ∈ old ∧ search E (some old) line = some false

/-- A line that is no valid pattern inherits the wrong outcome. -/
def StaleOutcome (lines : List Text) (i : Nat) (line : Text) : Prop :=
  search E (some old) line = none ∧ (Found E (some old) lines i ↔ line ∉ old)

variable {E org old rs}

/-- The decision about one line is right unless one of the three defects strikes. -/
theorem not_found_iff_notMem {lines : List Text} {i : Nat} {line : Text}
    (hi : lines[i]? = some line) :
    (¬ Found E (some old) lines i ↔ line ∉ old) ↔
      ¬ FalseMatch E old line ∧ ¬ FalseMiss E old line ∧ ¬ StaleOutcome E old lines i line := by
  cases hs : search E (some old) line with
  | some b =>
    rw [found_of_search hi hs]
    cases b <;> simp [FalseMatch, FalseMiss, StaleOutcome, hs]
  | none =>
    simp only [FalseMatch, FalseMiss, StaleOutcome, hs, reduceCtorEq, and_false, not_false_eq_true,
      true_and]
    exact not_iff.symm

/-- The delta is exact if and only if no active line suffers one of the defects. -/
theorem exactDelta_iff :
    ExactDelta E org old rs ↔
      ∀ i r, rs[i]? = some r → isInactive r = false →
        ¬ FalseMatch E old (recordLine r) ∧ ¬ FalseMiss E old (recordLine r) ∧
          ¬ StaleOutcome E old (exportCsv rs) (i + 1) (recordLine r) := by
  refine forall_congr' fun i => forall_congr' fun r => imp_congr_right fun hr =>
    imp_congr_right fun _ => ?_
  have hline : (exportCsv rs)[i + 1]? = some (recordLine r) := by
    rw [getElem?_exportCsv_succ, hr, Option.map_some]
  rw [appends_exportCsv_iff org (List.getElem?_eq_some_iff.mp hline).1]
  exact not_found_iff_notMem hline

/-- A person with a phone number written with a plus sign and parentheses. -/
def engineer : Record := fun
  | .ipn => some "pu00001".toList
  | .surname => some "Ivanov".toList
  | .name => some "Ivan".toList
  | .mobilePhone => some "+7(495)1234567".toList
  | .isActive => some "True".toList
  | _ => some []

end Exact

/-- An unchanged row whose phone number reads `+7(495)1234567` is processed again. -/
theorem exactDelta_engineer :
    ¬ @ExactDelta Culture.ascii (@Engine.core Culture.ascii) [] (exportCsv [engineer])
      [engineer] := by
  let _ := Culture.ascii
  intro h
  have hline : (exportCsv [engineer])[1]? = some (recordLine engineer) := rfl
  have hsearch : search Engine.core (some (exportCsv [engineer])) (recordLine engineer) =
      some false := by decide
  have happ : Appends Engine.core [] (some (exportCsv [engineer])) (exportCsv [engineer]) 1 := by
    rw [appends_exportCsv_iff [] (by decide), found_of_search hline hsearch]
    decide
  exact (h 0 engineer rfl (by decide)).mp happ (List.mem_of_getElem? hline)

section Plain

variable [Culture] (E : Engine) (old : List Text)

/-- A line without special letters is found where an old line contains it up to case. -/
theorem search_plain {line : Text} (hne : line ≠ []) (hp : Regex.Plain line) :
    ∃ b, search E (some old) line = some b ∧
      (b = true ↔ ∃ o ∈ old, toLower line <:+: toLower o) := by
  obtain ⟨test, htest, hmatch⟩ := E.compile_plain hp
  refine ⟨old.any test, search_of_compile hne htest, ?_⟩
  simp only [List.any_eq_true, hmatch]

/-- For a line without special letters only a false match is possible: another old
line that contains it up to case. -/
theorem plain_line_defects {lines : List Text} {i : Nat} {line : Text} (hne : line ≠ [])
    (hp : Regex.Plain line) :
    (FalseMatch E old line ↔ line ∉ old ∧ ∃ o ∈ old, toLower line <:+: toLower o) ∧
      ¬ FalseMiss E old line ∧ ¬ StaleOutcome E old lines i line := by
  obtain ⟨b, hs, hb⟩ := search_plain E old hne hp
  refine ⟨?_, ?_, ?_⟩
  · rw [FalseMatch, hs, Option.some.injEq, hb]
  · rintro ⟨hmem, hmiss⟩
    have htrue : b = true := hb.mpr ⟨line, hmem, List.infix_rfl⟩
    rw [hs, htrue] at hmiss
    exact absurd hmiss (by decide)
  · rintro ⟨hnone, _⟩
    rw [hs] at hnone
    exact Option.some_ne_none b hnone

end Plain

end OpsScripts.AddUser
