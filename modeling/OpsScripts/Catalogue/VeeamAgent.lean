import OpsScripts.Catalogue.Entries

/-!
# `VeeamAgentFreeToZabbix.ps1`

The subjects of the backup mails are split into machine and date and recorded in the
catalogue. All errors are suppressed, so a variable whose assignment fails keeps its
value from the subject before. `remaining` says what a run leaves of a catalogue.
-/

namespace OpsScripts.Catalogue.VeeamAgent

/-- What a run reads: the subjects of the mails and the limit of the retention period. -/
structure Run where
  mails : List Text
  todeleteDate : DateTime

variable [Culture] (parseDate : Text → Option DateTime)

/-! ## Subjects -/

/-- `$Message.split("-")[1].Trim() -replace "\s+"`. -/
def machineOf (message : Text) : Option Text :=
  (message.splitOn '-')[1]?.map fun t => removeSpaces (trim t)

/-- `([DateTime]($Message.split("-")[2].Split(",")[1])).ToString('yyyy.MM.dd HH:mm')`. -/
def dateOf (message : Text) : Option Text :=
  (((message.splitOn '-')[2]?.bind fun t => (t.splitOn ',')[1]?).bind parseDate).map
    DateTime.format

/-- `IF($Message -like "*Success*" -or "*Warning*"){$Result = "0"}`. The second operand is
a text that is not empty, so it counts as true. What follows, `ifelse(...) {...}`, calls a
command that does not exist. -/
def resultOf (result message : Text) : Text :=
  if like message "*Success*".toList || !"*Warning*".toList.isEmpty then "0".toList else result

/-- The variables `$Machine`, `$Result` and `$Date` after a subject. -/
def readMessage (v : Entry) (message : Text) : Entry where
  name := (machineOf message).getD v.name
  result := resultOf v.result message
  date := (dateOf parseDate message).getD v.date

/-- The variables after each subject. -/
def items : Entry → List Text → List Entry
  | _, [] => []
  | v, message :: mails =>
    readMessage parseDate v message :: items (readMessage parseDate v message) mails

/-- The variables before the first subject. -/
def unset : Entry := ⟨[], [], []⟩

/-! ## A run -/

/-- `$DeleteName -contains $_.Name -and $DeleteDate -notlike $_.Date`. -/
def dead (g e : Entry) : Bool := eqIgnoreCase g.name e.name && !like g.date e.date

/-- `ExportXml`. -/
def exportXml (run : Run) (c : List Entry) : List Entry :=
  removeOld run.todeleteDate.format <| removeDefault <| removeDuplicates dead <|
    (items parseDate unset run.mails).foldl exportItem c

/-- The catalogue after a sequence of runs, the first of which writes the template. -/
def catalogueAfter (runs : List Run) : List Entry :=
  runs.foldl (fun c run => exportXml parseDate run c) (openFile none)

/-! ## Queries -/

/-- `JobLastResult`. -/
def jobLastResult (c : List Entry) (id : Text) : List Text :=
  (c.filter fun e => eqIgnoreCase id e.name).map (·.result)

/-- A text as a number, in an addition to a number. -/
def number (t : Text) : Option Nat :=
  if t.all Char.isDigit then some (t.foldl (fun n c => 10 * n + (c.toNat - 48)) 0) else none

/-- One addition of `AllResult`; a text that is no number raises an error. -/
def addResult (summState : Nat) (t : Text) : Nat :=
  match number t with
  | some n => summState + n
  | none => summState

/-- `AllResult`. The results of several entries are a list of texts. The result of a single
entry is one text, whose count is one and whose first element is a character, which is
added with its code. -/
def allResult (c : List Entry) : Nat :=
  match c.map (·.result) with
  | [] => 0
  | [[]] => 0
  | [character :: _] => character.toNat
  | results => results.foldl addResult 0

/-! ## What a run does -/

/-- Every subject counts as a success. -/
theorem resultOf_eq (result message : Text) : resultOf result message = "0".toList := by
  simp [resultOf]

theorem result_of_mem_items {v e : Entry} {mails : List Text}
    (h : e ∈ items parseDate v mails) : e.result = "0".toList := by
  induction mails generalizing v with
  | nil => exact absurd h List.not_mem_nil
  | cons message mails ih =>
    rcases List.mem_cons.mp h with rfl | h
    · exact resultOf_eq _ _
    · exact ih h

/-- The dates of the items are formatted times, or not set. -/
theorem stable_of_mem_items {v e : Entry} {mails : List Text} (hv : Stable v.date)
    (h : e ∈ items parseDate v mails) : Stable e.date := by
  induction mails generalizing v with
  | nil => exact absurd h List.not_mem_nil
  | cons message mails ih =>
    have hread : Stable (readMessage parseDate v message).date := by
      simp only [readMessage, dateOf]
      cases ((message.splitOn '-')[2]?.bind fun t => (t.splitOn ',')[1]?).bind parseDate with
      | none => exact hv
      | some d => exact stable_format d
    rcases List.mem_cons.mp h with rfl | h
    · exact hread
    · exact ih hread h

/-- The catalogue that a run leaves: the old entries and, where there are two of them to
clone from, the new machines, all with the last values of the subjects, but without the
name of the template and without what the outdated entries take with them. -/
def remaining (run : Run) (c : List Entry) : List Entry :=
  let named := (store.recorded c (items parseDate unset run.mails)).filter
    fun e => store.key e ≠ defaultKey
  named.filter fun e => !aged run.todeleteDate.format named e

/-- No run on a ready catalogue finds a duplicate to remove. -/
theorem removeDuplicates_dead {c : List Entry} (h : Ready c) : removeDuplicates dead c = c := by
  rw [removeDuplicates_eq, List.filter_eq_self]
  intro e he
  rw [List.all_eq_true]
  intro g hg
  rw [Bool.not_eq_true', ← Bool.not_eq_true, dead, Bool.and_eq_true, not_and, eqIgnoreCase_iff]
  intro hkey
  have hmem := mem_of_mem_groups hg
  have hlike := (like_iff_of_stable (h.stable g hmem) (h.stable e he)).mpr
    (h.date_eq g hmem e he hkey)
  simp [hlike]

/-- On a ready catalogue, a run leaves what remains. -/
theorem exportXml_eq_remaining {c : List Entry} (h : Ready c) (run : Run) :
    exportXml parseDate run c = remaining parseDate run c := by
  have hrecorded := h.recorded fun i (hi : i ∈ items parseDate unset run.mails) =>
    stable_of_mem_items parseDate stable_nil hi
  have hnamed : removeDefault (store.recorded c (items parseDate unset run.mails)) =
      (store.recorded c (items parseDate unset run.mails)).filter
        fun e => store.key e ≠ defaultKey := by
    refine List.filter_congr fun e _ => ?_
    rw [Bool.eq_iff_iff, Bool.not_eq_true', ← Bool.not_eq_true, eqIgnoreCase_iff,
      decide_eq_true_eq]
    exact not_congr eq_comm
  rw [exportXml, foldl_exportItem, removeDuplicates_dead hrecorded, hnamed, removeOld_eq,
    remaining]

theorem remaining_sublist (run : Run) (c : List Entry) :
    (remaining parseDate run c).Sublist
      (store.recorded c (items parseDate unset run.mails)) :=
  List.filter_sublist.trans List.filter_sublist

theorem Ready.remaining {c : List Entry} (h : Ready c) (run : Run) :
    Ready (remaining parseDate run c) :=
  (h.recorded fun _ => stable_of_mem_items parseDate stable_nil).sublist
    (remaining_sublist parseDate run c)

theorem catalogueAfter_append (runs : List Run) (run : Run) :
    catalogueAfter parseDate (runs ++ [run]) =
      exportXml parseDate run (catalogueAfter parseDate runs) := by
  simp [catalogueAfter]

/-- All catalogues are ready. -/
theorem ready_catalogueAfter (runs : List Run) : Ready (catalogueAfter parseDate runs) := by
  induction runs using List.reverseRecOn with
  | nil => exact ready_template
  | append_singleton runs run ih =>
    rw [catalogueAfter_append, exportXml_eq_remaining parseDate ih]
    exact Ready.remaining parseDate ih run

/-- What a run leaves of the catalogue of earlier runs. -/
theorem exportXml_catalogueAfter (runs : List Run) (run : Run) :
    exportXml parseDate run (catalogueAfter parseDate runs) =
      remaining parseDate run (catalogueAfter parseDate runs) :=
  exportXml_eq_remaining parseDate (ready_catalogueAfter parseDate runs) run

/-- The template does not survive a run. -/
theorem key_ne_of_mem_remaining {run : Run} {c : List Entry} {e : Entry}
    (h : e ∈ remaining parseDate run c) : store.key e ≠ defaultKey := by
  have := (List.mem_filter.mp (List.mem_filter.mp h).1).2
  simpa using this

end OpsScripts.Catalogue.VeeamAgent
