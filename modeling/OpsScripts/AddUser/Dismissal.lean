import OpsScripts.AddUser.Rows

/-!
# The dismissal guard

An account should be disabled only when the last record of its person in
`Org.csv` is inactive. The guard of the compare loop looks at the last piece
of the line and at its sixth piece, the places of `IsActive` and `IPN` in
`Org.csv` but not in the trimmed file, so it never holds a row back. What is
left to protect an account is the search in the old snapshot.
-/

namespace OpsScripts.AddUser

section Dismissal

variable [Culture] (E : Engine) (org : List Text) (old : Option (List Text))

/-- The accounts that the disable branch of a run moves away. -/
def dismissed : List Text :=
  ((adUsers (delta E org old (trimFile org))).filter isDismissed).map username

/-- The last record of `Org.csv` for an account exists and is inactive. -/
def lastInactive (u : Text) : Bool :=
  (((importRecords org).filter fun r => username r == u).getLast?).any isInactive

/-- Only accounts whose last record is inactive are dismissed. -/
def DismissesOnlyInactive : Prop := ∀ u ∈ dismissed E org old, lastInactive org u = true

/-- No inactive record reaches the result file while a later record of the same
person is active. -/
def NoSupersededRow : Prop :=
  ∀ i j r s, i < j → (importRecords org)[i]? = some r → (importRecords org)[j]? = some s →
    username r = username s → isInactive r = true →
      Appends E org old (trimFile org) (i + 1) → isInactive s = true

variable {E org old}

@[simp] theorem username_filled (r : Record) : username (filled r) = username r := rfl

@[simp] theorem isDismissed_filled (r : Record) : isDismissed (filled r) = isDismissed r := rfl

/-- The header line is no dismissal. -/
theorem isDismissed_headerRecord : isDismissed headerRecord = false := by
  have h : isInactive headerRecord = false := by
    rw [isInactive, headerRecord, Option.getD_some, eqIgnoreCase_ascii (by decide) (by decide)]
    decide
  rw [isDismissed, h, Bool.and_false]

/-- The rows of the run are the records whose lines reached the result file. -/
theorem mem_adUsers_delta {rs : List Record} {row : Record} :
    row ∈ adUsers (delta E org old (exportCsv rs)) ↔
      ∃ r, recordLine r ∈ delta E org old (exportCsv rs) ∧ row = filled r := by
  have hlines : ∀ l ∈ delta E org old (exportCsv rs), ∃ r, l = recordLine r := by
    intro l hl
    obtain ⟨i, hi, _⟩ := mem_delta.mp hl
    rcases mem_exportCsv (List.mem_of_getElem? hi) with rfl | ⟨r, _, rfl⟩
    · exact ⟨headerRecord, rfl⟩
    · exact ⟨r, rfl⟩
  obtain ⟨ds, hds⟩ := exists_records hlines
  rw [hds, adUsers_map_recordLine, List.mem_map]
  constructor
  · rintro ⟨r, hr, rfl⟩
    exact ⟨r, List.mem_map_of_mem hr, rfl⟩
  · rintro ⟨r, hr, rfl⟩
    obtain ⟨s, hs, he⟩ := List.mem_map.mp hr
    exact ⟨s, hs, filled_eq_of_recordLine he⟩

/-- The dismissed accounts are those of the inactive records that are not found. -/
theorem mem_dismissed {u : Text} :
    u ∈ dismissed E org old ↔ ∃ i r, (importRecords org)[i]? = some r ∧ isDismissed r = true ∧
      username r = u ∧ ¬ Found E old (trimFile org) (i + 1) := by
  simp only [dismissed, trimFile, List.mem_map, List.mem_filter, mem_adUsers_delta, mem_delta]
  constructor
  · rintro ⟨_, ⟨⟨r, ⟨i, hi, happ⟩, rfl⟩, hd⟩, rfl⟩
    rw [isDismissed_filled] at hd
    have hlen := (List.getElem?_eq_some_iff.mp hi).1
    rw [appends_exportCsv_iff org hlen] at happ
    cases i with
    | zero =>
      have hheader : recordLine r = recordLine headerRecord := by
        cases hrs : importRecords org with
        | nil => simp [hrs, exportCsv] at hi
        | cons s rs => simpa [hrs, exportCsv, eq_comm] using hi
      have hfilled := filled_eq_of_recordLine hheader
      rw [← isDismissed_filled, hfilled, isDismissed_filled, isDismissed_headerRecord] at hd
      exact absurd hd (by decide)
    | succ i =>
      rw [getElem?_exportCsv_succ] at hi
      obtain ⟨s, hs, he⟩ := Option.map_eq_some_iff.mp hi
      have hfilled := filled_eq_of_recordLine he
      refine ⟨i, s, hs, ?_, ?_, happ⟩
      · rw [← isDismissed_filled, hfilled, isDismissed_filled, hd]
      · rw [← username_filled, hfilled]
  · rintro ⟨i, r, hr, hd, rfl, hfound⟩
    have hline := getElem?_trimFile hr
    have happ := (appends_trimFile_iff org hline).mpr hfound
    exact ⟨filled r, ⟨⟨r, ⟨i + 1, hline, happ⟩, rfl⟩, hd⟩, rfl⟩

/-- Accounts are protected exactly as far as every inactive record that is superseded
is found in the old snapshot. -/
theorem dismissal_guard_iff :
    (DismissesOnlyInactive E org old ↔
      ∀ i r, (importRecords org)[i]? = some r → isDismissed r = true →
        lastInactive org (username r) = false → Found E old (trimFile org) (i + 1)) ∧
    (NoSupersededRow E org old ↔
      ∀ i j r s, i < j → (importRecords org)[i]? = some r → (importRecords org)[j]? = some s →
        username r = username s → isInactive r = true → isInactive s = false →
          Found E old (trimFile org) (i + 1)) := by
  constructor
  · constructor
    · intro h i r hr hd hlast
      by_contra hfound
      have := h _ (mem_dismissed.mpr ⟨i, r, hr, hd, rfl, hfound⟩)
      rw [hlast] at this
      exact absurd this (by decide)
    · intro h u hu
      obtain ⟨i, r, hr, hd, rfl, hfound⟩ := mem_dismissed.mp hu
      by_contra hlast
      exact hfound (h i r hr hd (Bool.eq_false_iff.mpr hlast))
  · refine forall_congr' fun i => forall_congr' fun j => forall_congr' fun r =>
      forall_congr' fun s => imp_congr_right fun _ => imp_congr_right fun hr =>
      imp_congr_right fun _ => imp_congr_right fun _ => imp_congr_right fun _ => ?_
    rw [appends_trimFile_iff org (getElem?_trimFile hr)]
    constructor
    · intro h hs
      by_contra hfound
      rw [h hfound] at hs
      exact absurd hs (by decide)
    · intro h hfound
      by_contra hs
      exact hfound (h (Bool.eq_false_iff.mpr hs))

end Dismissal

section Transfer

local instance : Culture := Culture.ascii

/-- Today's `Org.csv` after a person has left one post for another. -/
def transferred : List Text :=
  ["ORG:CATEGORY:ORG_TEXT_RU:FONC_RU:CdG:IPN:Surname:Name:Patro:IsActive",
    "A:1:OU=A:clerk:7:pu00001:Ivanov:Ivan::False",
    "B:1:OU=B:chief:7:pu00001:Ivanov:Ivan::True"]

/-- Record `i` of that file. -/
def transferredRecord (i : Nat) : Record :=
  ((importRecords transferred)[i]?).getD headerRecord

/-- With yesterday's file empty, the person is dismissed although the last record
is active, and the inactive record is in the result file. -/
theorem dismissal_transferred :
    ¬ DismissesOnlyInactive Engine.core transferred (some [headerLine]) ∧
      ¬ NoSupersededRow Engine.core transferred (some [headerLine]) := by
  have hleft : (importRecords transferred)[0]? = some (transferredRecord 0) := rfl
  have hnew : (importRecords transferred)[1]? = some (transferredRecord 1) := rfl
  have hline := getElem?_trimFile hleft
  have hfound : ¬ Found Engine.core (some [headerLine]) (trimFile transferred) 1 := by
    rw [found_of_search hline (b := false) (by decide)]
    decide
  constructor
  · intro h
    have hdismissed := mem_dismissed.mpr ⟨0, _, hleft, by decide, rfl, hfound⟩
    exact absurd (h _ hdismissed) (by decide)
  · intro h
    have happ := (appends_trimFile_iff transferred hline).mpr hfound
    exact absurd (h 0 1 _ _ (by decide) hleft hnew (by decide) (by decide) happ) (by decide)

end Transfer

end OpsScripts.AddUser
