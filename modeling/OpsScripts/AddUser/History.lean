import OpsScripts.AddUser.Dismissal
import Mathlib.Data.List.Sort

/-!
# Runs and the store of snapshots

Every run compares against the newest snapshot of the store and puts its own
trimmed file there before it processes a single row. What becomes of the rows
has no influence on the store, so a row that fails is not tried again; what
remains of it is an entry of the error log.
-/

namespace OpsScripts.AddUser

/-- A file of `C:\OLD_ADU\Log`. -/
structure Snapshot where
  lastWriteTime : Nat
  lines : List Text

/-- What a run finds: the source file, the clock, the errors raised before the row
loop, which fit the error list, and the directory. -/
structure Input where
  org : List Text
  time : Nat
  date : Text
  earlierErrors : Nat
  host : Host
  earlierErrors_le : earlierErrors ≤ maximumErrorCount

/-- `Get-ChildItem C:\OLD_ADU\Log | sort LastWriteTime | select -Last 1`. -/
def newest (log : List Snapshot) : Option (List Text) :=
  ((log.mergeSort fun a b => a.lastWriteTime ≤ b.lastWriteTime).getLast?).map (·.lines)

section Runs

variable [Culture] (E : Engine)

/-- `Copy-Item` of the trimmed file to the store. -/
def commit (log : List Snapshot) (run : Input) : List Snapshot :=
  log ++ [⟨run.time, trimFile run.org⟩]

/-- The rows of a run. -/
def runRows (log : List Snapshot) (run : Input) : List Record :=
  adUsers (delta E run.org (newest log) (trimFile run.org))

/-- The store after a sequence of runs. -/
def logAfter (log : List Snapshot) (runs : List Input) : List Snapshot := runs.foldl commit log

/-- Every run is later than all snapshots it finds. -/
def Chronological : List Snapshot → List Input → Prop
  | _, [] => True
  | log, run :: runs =>
    (∀ s ∈ log, s.lastWriteTime < run.time) ∧ Chronological (commit log run) runs

/-- The row of record `i` is in the delta of a run. -/
def InDelta (log : List Snapshot) (run : Input) (i : Nat) : Prop :=
  Appends E run.org (newest log) (trimFile run.org) (i + 1)

/-- The errors known when row `k` of a run is processed. -/
def errorsBefore (log : List Snapshot) (run : Input) (k : Nat) : ErrorState :=
  processRows run.host run.date run.earlierErrors ((runRows E log run).take k)

/-- The errors known at the end of a run. -/
def errorsAfter (log : List Snapshot) (run : Input) : ErrorState :=
  processRows run.host run.date run.earlierErrors (runRows E log run)

variable {E}

/-- The snapshot of the last run is the newest one. -/
theorem newest_commit {log : List Snapshot} {run : Input}
    (h : ∀ s ∈ log, s.lastWriteTime < run.time) :
    newest (commit log run) = some (trimFile run.org) := by
  set le := fun a b : Snapshot => decide (a.lastWriteTime ≤ b.lastWriteTime) with hle
  have hperm := List.mergeSort_perm (commit log run) le
  have hsorted : ((commit log run).mergeSort le).Pairwise fun a b => le a b = true :=
    List.pairwise_mergeSort (by simp [hle]; omega) (by simp [hle]; omega) _
  have hmem : (⟨run.time, trimFile run.org⟩ : Snapshot) ∈ (commit log run).mergeSort le :=
    hperm.mem_iff.mpr (List.mem_append_right _ (List.mem_singleton_self _))
  obtain ⟨front, last, hlast⟩ := List.eq_nil_or_concat _ |>.resolve_left (List.ne_nil_of_mem hmem)
  have hlastmem : last ∈ commit log run := hperm.mem_iff.mp (by rw [hlast]; simp)
  rw [hlast] at hsorted hmem
  have hbound : last = ⟨run.time, trimFile run.org⟩ := by
    rcases List.mem_append.mp hlastmem with hl | hl
    · rcases List.mem_append.mp (List.concat_eq_append ▸ hmem) with hf | hf
      · have := (List.pairwise_append.mp (List.concat_eq_append ▸ hsorted)).2.2 _ hf last (by simp)
        simp only [hle, decide_eq_true_eq] at this
        have := h last hl
        omega
      · exact (List.mem_singleton.mp hf).symm
    · exact List.mem_singleton.mp hl
  rw [newest, hlast, List.concat_eq_append, List.getLast?_concat, Option.map_some, hbound]

/-- A chronological sequence can be cut before any of its runs. -/
theorem Chronological.last_two {log : List Snapshot} {runs : List Input} {a b : Input}
    (h : Chronological log (runs ++ [a, b])) :
    ∀ s ∈ logAfter log runs, s.lastWriteTime < a.time := by
  induction runs generalizing log with
  | nil => exact h.1
  | cons run runs ih => exact ih h.2

/-- The error counters stay in order over any rows. -/
theorem processRows_le (h : Host) (date : Text) {count : Nat} (hcount : count ≤ maximumErrorCount)
    (rows : List Record) :
    (processRows h date count rows).erorcount ≤ (processRows h date count rows).count ∧
      (processRows h date count rows).count ≤ maximumErrorCount := by
  induction rows using List.reverseRecOn with
  | nil => exact ⟨Nat.zero_le _, hcount⟩
  | append_singleton rows r ih =>
    rw [processRows, List.foldl_append]
    exact erorcount_le_count ih.1 ih.2 r

/-- A failing row leaves an entry in the error log of its run. -/
theorem report_run {log : List Snapshot} {run : Input} {k : Nat} {row : Record}
    (hk : (runRows E log run)[k]? = some row) (hfail : rowFails run.host row)
    (hfull : (errorsBefore E log run k).count < maximumErrorCount) :
    errorEntry run.date row "error detected" ∈ (errorsAfter E log run).log := by
  obtain ⟨hlt, rfl⟩ := List.getElem?_eq_some_iff.mp hk
  have hsplit : errorsAfter E log run =
      ((runRows E log run).drop (k + 1)).foldl (processRow run.host run.date)
        (processRow run.host run.date (errorsBefore E log run k) (runRows E log run)[k]) := by
    rw [errorsAfter, errorsBefore, processRows, processRows, ← List.foldl_cons,
      List.getElem_cons_drop, ← List.foldl_append, List.take_append_drop]
  have hreport := report_processRow run.date
    (processRows_le run.host run.date run.earlierErrors_le _).1 hfull hfail
  rw [hsplit]
  exact (log_prefix_foldl _ _).subset hreport

/-- The claimed behaviour of two consecutive runs: a record whose row fails is in the
next delta as long as the source keeps it unchanged. -/
def NoLostUpdate (E : Engine) (log : List Snapshot) (a b : Input) : Prop :=
  ∀ i j r, (importRecords a.org)[i]? = some r → (importRecords b.org)[j]? = some r →
    InDelta E log a i → rowFails a.host (filled r) → InDelta E (commit log a) b j

/-- In every sequence of runs, a failed record that the source keeps is in the next
delta exactly where the search does not find it in the snapshot its own run has
committed, hence never when its line is plain. Its failure is in the error log,
unless the error list was full. -/
theorem failed_record_next_run (log₀ : List Snapshot) (runs : List Input) (a b : Input)
    (h : Chronological log₀ (runs ++ [a, b])) {i j : Nat} {r : Record}
    (hi : (importRecords a.org)[i]? = some r)
    (hj : (importRecords b.org)[j]? = some r) (hdelta : InDelta E (logAfter log₀ runs) a i)
    (hfail : rowFails a.host (filled r)) :
    (InDelta E (commit (logAfter log₀ runs) a) b j ↔
      ¬ Found E (some (trimFile a.org)) (trimFile b.org) (j + 1)) ∧
    (Regex.Plain (recordLine r) → ¬ InDelta E (commit (logAfter log₀ runs) a) b j) ∧
    ∃ k, (runRows E (logAfter log₀ runs) a)[k]? = some (filled r) ∧
      ((errorsBefore E (logAfter log₀ runs) a k).count < maximumErrorCount →
        errorEntry a.date (filled r) "error detected" ∈
          (errorsAfter E (logAfter log₀ runs) a).log) := by
  have hlineA := getElem?_trimFile hi
  have hlineB := getElem?_trimFile hj
  have hnext : InDelta E (commit (logAfter log₀ runs) a) b j ↔
      ¬ Found E (some (trimFile a.org)) (trimFile b.org) (j + 1) := by
    rw [InDelta, newest_commit h.last_two, appends_trimFile_iff b.org hlineB]
  refine ⟨hnext, fun hplain => ?_, ?_⟩
  · have hne : recordLine r ≠ [] := by
      obtain ⟨pre, hpre⟩ := recordLine_eq_append r
      simp [hpre]
    obtain ⟨found, hsearch, hfound⟩ := search_plain E (trimFile a.org) hne hplain
    rw [hnext, found_of_search hlineB hsearch, hfound, not_not]
    exact ⟨recordLine r, List.mem_of_getElem? hlineA, List.infix_rfl⟩
  · have hrow : filled r ∈ runRows E (logAfter log₀ runs) a :=
      mem_adUsers_delta.mpr ⟨r, mem_delta.mpr ⟨i + 1, hlineA, hdelta⟩, rfl⟩
    obtain ⟨k, hk⟩ := List.mem_iff_getElem?.mp hrow
    exact ⟨k, hk, report_run hk hfail⟩

end Runs

section Lost

local instance : Culture := Culture.ascii

/-- A directory that holds no account and refuses to create one. -/
def refusing : Host := ⟨fun _ => false, fun _ => false, fun _ => true, fun _ => 0⟩

/-- `Org.csv` with one new employee. -/
def newcomer : List Text :=
  ["IPN:Surname:Name:ORG_TEXT_RU:IsActive", "pu00002:Petrov:Petr:OU=A:True"]

/-- The first of two runs over that file. -/
def firstRun : Input := ⟨newcomer, 1, "2024.01.10", 0, refusing, by decide⟩

/-- The second run, a day later. -/
def secondRun : Input := ⟨newcomer, 2, "2024.01.11", 0, refusing, by decide⟩

/-- The record of the new employee. -/
def newcomerRecord : Record := ((importRecords newcomer)[0]?).getD headerRecord

/-- The store before the first run. -/
def emptyStore : List Snapshot := [⟨0, [headerLine]⟩]

theorem newcomer_line : (trimFile newcomer)[1]? = some (recordLine newcomerRecord) :=
  getElem?_trimFile rfl

theorem newcomer_delta : InDelta Engine.core emptyStore firstRun 0 := by
  have hnewest : newest emptyStore = some [headerLine] := by
    rw [newest, emptyStore, List.mergeSort_singleton]
    rfl
  change Appends Engine.core newcomer _ (trimFile newcomer) 1
  rw [hnewest, appends_trimFile_iff newcomer newcomer_line,
    found_of_search newcomer_line (b := false) (by decide)]
  decide

/-- The account that could not be created is not in the delta of the second run. -/
theorem lost_newcomer : ¬ NoLostUpdate Engine.core emptyStore firstRun secondRun := by
  intro h
  have hnext := h 0 0 newcomerRecord rfl rfl newcomer_delta (by unfold rowFails; decide)
  change Appends Engine.core newcomer _ (trimFile newcomer) 1 at hnext
  rw [newest_commit (by decide), appends_trimFile_iff newcomer newcomer_line] at hnext
  have hsearch : search Engine.core (some (trimFile firstRun.org)) (recordLine newcomerRecord) =
      some true := by decide
  exact hnext ((found_of_search newcomer_line hsearch).mpr rfl)

/-- The record is found in the snapshot of the first run, so it is lost. -/
theorem failed_newcomer_next_run :
    Found Engine.core (some (trimFile newcomer)) (trimFile newcomer) 1 ∧
      ¬ InDelta Engine.core (commit emptyStore firstRun) secondRun 0 := by
  have h := failed_record_next_run (E := Engine.core) emptyStore [] firstRun secondRun
    ⟨by decide, by decide, trivial⟩ (i := 0) (j := 0) rfl rfl newcomer_delta
    (by unfold rowFails; decide)
  have hplain := h.2.1 (by decide)
  exact ⟨not_not.mp fun hnot => hplain (h.1.mpr hnot), hplain⟩

end Lost

end OpsScripts.AddUser
