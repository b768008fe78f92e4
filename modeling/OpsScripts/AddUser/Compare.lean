import OpsScripts.AddUser.Snapshot
import OpsScripts.Core.RegexSyntax
import OpsScripts.Core.Wildcard

/-!
# The compare loop

Every line of the new trimmed file is searched for in the newest snapshot,
the line itself being the pattern. A line that is not found goes to the
result file, unless a guard meant for inactive rows holds it back. A line
that is no valid pattern raises an error and the variable keeps the outcome
of an earlier iteration.
-/

namespace OpsScripts.AddUser

section Loop

variable [Culture] (E : Engine)

/-- `Select-String`: the matching lines with their numbers, or an error where the
file is missing, the pattern is empty or no regular expression. -/
def selectString (ignoreCase : Bool) (file : Option (List Text)) (pattern : Text) :
    Option (List (Nat × Text)) := do
  let lines ← file
  let test ← if pattern = [] then none else E.compile ignoreCase pattern
  return (lines.zipIdx.filter fun p => test p.1).map fun p => (p.2 + 1, p.1)

/-- `$fileDir`. -/
def fileDir : Text := "\\\\fl.moskvich.ru\\dfs\\AD\\Org.csv"

/-- The text of a match: file, line number and line. -/
def matchText (m : Nat × Text) : Text := fileDir ++ ':' :: (Nat.repr m.1).toList ++ ':' :: m.2

/-- What survives from one iteration of the loop to the next. -/
structure CompareState where
  /-- `$compareline` is not `$null`. -/
  compareline : Bool
  /-- The text of `$IFstring`. -/
  ifString : Option Text
  /-- The lines appended to the result file. -/
  result : List Text

/-- No search has been made yet. -/
def CompareState.start : CompareState := ⟨false, none, []⟩

/-- Whether a line of the old snapshot matches; nothing where the search fails. -/
def search (old : Option (List Text)) (string : Text) : Option Bool :=
  (selectString E true old string).map fun ms => !ms.isEmpty

/-- The guard for inactive rows: whether the line may be appended, and `$IFstring`. -/
def guardInactive (org : List Text) (ifString : Option Text) (string : Text) :
    Bool × Option Text :=
  if eqIgnoreCase (lastPiece ':' string) "False" then
    let ifuser := ((string.splitOn ':')[5]?).getD []
    let ifString := match selectString E false (some org) ifuser with
      | some ms => ms.getLast?.map matchText
      | none => ifString
    (like (ifString.getD []) "*:False", ifString)
  else (true, ifString)

/-- One iteration of `foreach($string in $filenew)`. -/
def compareStep (org : List Text) (old : Option (List Text)) (st : CompareState)
    (string : Text) : CompareState :=
  let compareline := (search E old string).getD st.compareline
  if compareline then { st with compareline }
  else
    let (append, ifString) := guardInactive E org st.ifString string
    ⟨compareline, ifString, if append then st.result ++ [string] else st.result⟩

/-- The whole loop. -/
def compareLoop (org : List Text) (old : Option (List Text)) (filenew : List Text) :
    CompareState :=
  filenew.foldl (compareStep E org old) CompareState.start

/-- The lines of the result file behind its header. -/
def delta (org : List Text) (old : Option (List Text)) (filenew : List Text) : List Text :=
  (compareLoop E org old filenew).result

/-- Iteration `i` appends its line. -/
def Appends (org : List Text) (old : Option (List Text)) (filenew : List Text) (i : Nat) : Prop :=
  ∃ string, filenew[i]? = some string ∧
    delta E org old (filenew.take (i + 1)) = delta E org old (filenew.take i) ++ [string]

/-! ## What decides about a line -/

/-- The last line up to `i` whose search succeeds is found in the old snapshot. -/
def Found (old : Option (List Text)) (filenew : List Text) (i : Nat) : Prop :=
  ∃ j ≤ i, ∃ string, filenew[j]? = some string ∧ search E old string = some true ∧
    ∀ k, j < k → k ≤ i → ∀ later, filenew[k]? = some later → search E old later = none

variable {E} {org : List Text} {old : Option (List Text)}

/-- A valid pattern is found where some line of the file matches it. -/
theorem search_of_compile {lines : List Text} {string : Text} {test : Text → Bool}
    (hne : string ≠ []) (htest : E.compile true string = some test) :
    search E (some lines) string = some (lines.any test) := by
  have hfilter : (lines.zipIdx.filter fun p => test p.1).map Prod.fst = lines.filter test := by
    calc (lines.zipIdx.filter fun p => test p.1).map Prod.fst
        = (lines.zipIdx.map Prod.fst).filter test := (List.filter_map ..).symm
      _ = lines.filter test := by rw [List.zipIdx_map_fst]
  have hempty : (lines.zipIdx.filter fun p => test p.1).isEmpty = (lines.filter test).isEmpty := by
    rw [← hfilter, List.isEmpty_map]
  simp only [search, selectString, hne, htest, ite_false, Option.bind_eq_bind, Option.bind_some,
    Option.pure_def, Option.map_some, List.isEmpty_map, hempty, Option.some.injEq]
  rw [Bool.eq_iff_iff]
  simp

/-- The loop over a longer list does one more iteration. -/
theorem compareLoop_append (lines : List Text) (string : Text) :
    compareLoop E org old (lines ++ [string]) =
      compareStep E org old (compareLoop E org old lines) string := by
  simp [compareLoop, List.foldl_append]

/-- A line whose search succeeds is decided by its own search. -/
theorem found_of_search {lines : List Text} {string : Text} {b : Bool} {i : Nat}
    (hi : lines[i]? = some string) (hs : search E old string = some b) :
    Found E old lines i ↔ b = true := by
  constructor
  · rintro ⟨j, hj, earlier, hearlier, hmatch, hbetween⟩
    rcases Nat.lt_or_eq_of_le hj with hlt | rfl
    · have := hbetween i hlt le_rfl string hi
      rw [hs] at this
      exact absurd this (Option.some_ne_none b)
    · have he : string = earlier := Option.some.inj (hi.symm.trans hearlier)
      rw [← he, hs] at hmatch
      exact Option.some.inj hmatch
  · rintro rfl
    exact ⟨i, le_rfl, string, hi, hs, fun k hk hki => absurd hki (Nat.not_le.mpr hk)⟩

/-- A line whose search fails is decided as the line before it. -/
theorem found_of_search_none {lines : List Text} {string : Text} {i : Nat}
    (hi : lines[i]? = some string) (hs : search E old string = none) :
    Found E old lines i ↔ ∃ j, i = j + 1 ∧ Found E old lines j := by
  constructor
  · rintro ⟨j, hj, earlier, hearlier, hmatch, hbetween⟩
    have hne : j ≠ i := by
      rintro rfl
      have he : string = earlier := Option.some.inj (hi.symm.trans hearlier)
      rw [← he, hs] at hmatch
      exact absurd hmatch.symm (Option.some_ne_none true)
    obtain ⟨m, rfl⟩ : ∃ m, i = m + 1 := ⟨i - 1, by omega⟩
    exact ⟨m, rfl, j, by omega, earlier, hearlier, hmatch,
      fun k hk hkm => hbetween k hk (by omega)⟩
  · rintro ⟨m, rfl, j, hj, earlier, hearlier, hmatch, hbetween⟩
    refine ⟨j, by omega, earlier, hearlier, hmatch, fun k hk hki later hlater => ?_⟩
    rcases Nat.lt_or_eq_of_le hki with hlt | rfl
    · exact hbetween k hk (by omega) later hlater
    · have he : string = later := Option.some.inj (hi.symm.trans hlater)
      rw [← he, hs]

/-- One iteration sets the variable to the outcome of a successful search. -/
theorem compareStep_compareline (st : CompareState) (string : Text) :
    (compareStep E org old st string).compareline = (search E old string).getD st.compareline := by
  unfold compareStep
  by_cases h : (search E old string).getD st.compareline = true
  · simp only [h, ite_true]
  · simp only [h, Bool.false_eq_true, ite_false]

/-- One iteration appends its line or nothing. -/
theorem compareStep_result (st : CompareState) (string : Text) :
    (compareStep E org old st string).result = st.result ∨
      (compareStep E org old st string).result = st.result ++ [string] := by
  unfold compareStep
  by_cases h : (search E old string).getD st.compareline = true
  · simp only [h, ite_true, true_or]
  · simp only [h, Bool.false_eq_true, ite_false]
    by_cases hg : (guardInactive E org st.ifString string).1 = true
    · simp only [hg, ite_true, or_true]
    · simp only [hg, Bool.false_eq_true, ite_false, true_or]

/-- Taking one line more does one iteration more. -/
theorem compareLoop_take_succ {lines : List Text} {i : Nat} {string : Text}
    (hi : lines[i]? = some string) :
    compareLoop E org old (lines.take (i + 1)) =
      compareStep E org old (compareLoop E org old (lines.take i)) string := by
  rw [← compareLoop_append, List.take_add_one, hi, Option.toList_some]

/-- After iteration `i` the variable tells whether the line was found. -/
theorem compareline_iff_found (org lines : List Text) {i : Nat} (hi : i < lines.length) :
    (compareLoop E org old (lines.take (i + 1))).compareline = true ↔ Found E old lines i := by
  induction i with
  | zero =>
    have hget : lines[0]? = some lines[0] := List.getElem?_eq_getElem hi
    rw [compareLoop_take_succ hget, compareStep_compareline]
    cases hs : search E old lines[0] with
    | some b => rw [found_of_search hget hs, Option.getD_some]
    | none =>
      rw [found_of_search_none hget hs, Option.getD_none]
      simp [compareLoop, CompareState.start]
  | succ i ih =>
    have hget : lines[i + 1]? = some lines[i + 1] := List.getElem?_eq_getElem hi
    rw [compareLoop_take_succ hget, compareStep_compareline]
    cases hs : search E old lines[i + 1] with
    | some b => rw [found_of_search hget hs, Option.getD_some]
    | none =>
      rw [found_of_search_none hget hs, Option.getD_none, ih (by omega)]
      simp

/-! ## The result file -/

/-- One more iteration adds its line to the result file, or leaves it as it is. -/
theorem mem_delta_take_succ {lines : List Text} {n : Nat} {line : Text}
    (hn : lines[n]? = some line) (string : Text) :
    string ∈ delta E org old (lines.take (n + 1)) ↔
      string ∈ delta E org old (lines.take n) ∨
        lines[n]? = some string ∧ Appends E org old lines n := by
  have hstep : compareLoop E org old (lines.take (n + 1)) =
      compareStep E org old (compareLoop E org old (lines.take n)) line :=
    compareLoop_take_succ hn
  have hresult : (compareStep E org old (compareLoop E org old (lines.take n)) line).result =
      (compareLoop E org old (lines.take n)).result ∨ _ := compareStep_result _ line
  rcases hresult with hr | hr
  · have hsame : delta E org old (lines.take (n + 1)) = delta E org old (lines.take n) := by
      rw [delta, hstep, hr, delta]
    rw [hsame, or_iff_left]
    rintro ⟨_, s, _, hs⟩
    simp [hsame] at hs
  · have hmore : delta E org old (lines.take (n + 1)) =
        delta E org old (lines.take n) ++ [line] := by
      rw [delta, hstep, hr, delta]
    have happ : Appends E org old lines n := ⟨line, hn, hmore⟩
    rw [hmore, List.mem_append, List.mem_singleton, hn, Option.some.injEq, eq_comm]
    simp only [happ, and_true]

/-- A line reaches the result file in one of the iterations. -/
theorem mem_delta {lines : List Text} {string : Text} :
    string ∈ delta E org old lines ↔
      ∃ i, lines[i]? = some string ∧ Appends E org old lines i := by
  have hprefix : ∀ n ≤ lines.length, string ∈ delta E org old (lines.take n) ↔
      ∃ i < n, lines[i]? = some string ∧ Appends E org old lines i := by
    intro n hn
    induction n with
    | zero => simp [delta, compareLoop, CompareState.start]
    | succ n ih =>
      rw [mem_delta_take_succ (List.getElem?_eq_getElem hn), ih (by omega)]
      constructor
      · rintro (⟨i, hi, h⟩ | h)
        · exact ⟨i, by omega, h⟩
        · exact ⟨n, Nat.lt_succ_self n, h⟩
      · rintro ⟨i, hi, h⟩
        rcases Nat.lt_or_eq_of_le (Nat.le_of_lt_succ hi) with hlt | rfl
        · exact Or.inl ⟨i, hlt, h⟩
        · exact Or.inr h
  have hall := hprefix lines.length le_rfl
  rw [List.take_length] at hall
  rw [hall]
  constructor
  · rintro ⟨i, _, h⟩
    exact ⟨i, h⟩
  · rintro ⟨i, hget, h⟩
    exact ⟨i, (List.getElem?_eq_some_iff.mp hget).1, hget, h⟩

/-- The guard never speaks about a line of the trimmed file: what stands behind
its last colon is a quoted value or nothing. -/
theorem guardInactive_exportCsv {rs : List Record} {line : Text} (h : line ∈ exportCsv rs)
    (org : List Text) (ifString : Option Text) :
    guardInactive E org ifString line = (true, ifString) := by
  obtain ⟨r, rfl⟩ : ∃ r, line = recordLine r := by
    rcases mem_exportCsv h with rfl | ⟨r, _, rfl⟩
    · exact ⟨headerRecord, rfl⟩
    · exact ⟨r, rfl⟩
  have hne : eqIgnoreCase (lastPiece ':' (recordLine r)) "False" = false := by
    rcases lastPiece_recordLine r with hl | hl
    · rw [hl]
      rfl
    · refine eqIgnoreCase_of_getLast hl (d := 'e') rfl ?_
      rw [Culture.lower_ascii _ (by decide), Culture.lower_ascii _ (by decide)]
      decide
  rw [guardInactive, hne]
  rfl

/-- On a trimmed file the loop appends exactly the lines that are not found. -/
theorem appends_exportCsv_iff (org : List Text) {rs : List Record} {i : Nat}
    (hi : i < (exportCsv rs).length) :
    Appends E org old (exportCsv rs) i ↔ ¬ Found E old (exportCsv rs) i := by
  have hget := List.getElem?_eq_getElem hi
  have hguard : ∀ ifString, guardInactive E org ifString (exportCsv rs)[i] = (true, ifString) :=
    guardInactive_exportCsv (List.getElem_mem hi) org
  rw [← compareline_iff_found org _ hi, compareLoop_take_succ hget, compareStep_compareline]
  constructor
  · rintro ⟨s, hs, hdelta⟩ hfound
    rw [delta, compareLoop_take_succ hget, compareStep] at hdelta
    simp only [hfound, ite_true, delta] at hdelta
    simp at hdelta
  · intro hnot
    refine ⟨_, hget, ?_⟩
    rw [delta, compareLoop_take_succ hget, compareStep]
    simp only [hnot, hguard, Bool.false_eq_true, ite_false, ite_true, delta]

/-- The same for the trimmed file of some `Org.csv`. -/
theorem appends_trimFile_iff (org : List Text) {source : List Text} {i : Nat} {line : Text}
    (hi : (trimFile source)[i]? = some line) :
    Appends E org old (trimFile source) i ↔ ¬ Found E old (trimFile source) i :=
  appends_exportCsv_iff org (List.getElem?_eq_some_iff.mp hi).1

end Loop

end OpsScripts.AddUser
