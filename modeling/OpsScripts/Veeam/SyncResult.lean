import OpsScripts.Veeam.Tasks

/-!
# `ResultBackupSync`

The result of a job is put together from the last states of its machines, of which those without
an attempt in the last days are left out.
-/

namespace OpsScripts.Veeam

/-- A row of `backupjob.xml`. -/
structure Job where
  id : Text
  name : Text
  jobType : Text
  isScheduleEnabled : Bool
  deriving DecidableEq

section Script

variable [Culture] (le : Text → Text → Bool)

/-- How many rows have a state. -/
def stateCount (result : List Row) (state : Text) : Nat :=
  (result.filter fun r => like r.status ('*' :: (state ++ ['*']))).length

/-- `veeam-backuptask-unique -ID $xml.name`, which needs a name. -/
def recentTasks (jobs : List Job) (rows : List Row) (excludeDate : Nat) (id : Text) : List Row :=
  match (jobs.filter fun j => like j.id id).map Job.name with
  | [] => []
  | name :: names =>
    (backuptaskUnique le rows Row.jobName ([' '].intercalate (name :: names))).filter
      fun r => excludeDate ≤ r.jobEnd

/-- `ResultBackupSync`; without a branch for the states nothing is written. -/
def resultBackupSync (jobs : List Job) (rows : List Row) (history : List BackupSession)
    (excludeDate : Nat) (id : Text) : Option Text :=
  let result := recentTasks le jobs rows excludeDate id
  if result.length = stateCount result "Success".toList then some "2".toList
  else if 0 < stateCount result "Failed".toList then some "0".toList
  else if 0 < stateCount result "Warning".toList then some "1".toList
  else if 0 < stateCount result "InProgress".toList then some "5".toList
  else if 0 < stateCount result "Pending".toList then
    let query1 := ((history.filter fun s => like s.jobId ('*' :: (id ++ ['*']))).mergeSort
      fun a b => b.creationTime ≤ a.creationTime)[1]?
    match query1 with
    | none => some "4".toList
    | some s => some (veeamStatusReplace s.result.value)
  else none

end Script

section States

variable [Culture] {result : List Row}

/-- A row of a state. -/
def HasState (state : Text) (r : Row) : Prop := like r.status ('*' :: (state ++ ['*'])) = true

theorem length_eq_stateCount_iff {state : Text} :
    result.length = stateCount result state ↔ ∀ r ∈ result, HasState state r := by
  rw [stateCount, eq_comm, List.length_filter_eq_length_iff]
  rfl

theorem stateCount_pos_iff {state : Text} :
    0 < stateCount result state ↔ ∃ r ∈ result, HasState state r := by
  rw [stateCount, List.length_pos_iff_exists_mem]
  simp only [List.mem_filter]
  rfl

end States

section Recent

variable [Culture] {le : Text → Text → Bool} {startDate : Nat} {all : List BackupSession}

/-- The last states of the machines of a job: of each machine a newest attempt, unless it is too
old. -/
structure LastStates (P : Row → Prop) (p : Row → Bool) (excludeDate : Nat)
    (result : List Row) : Prop where
  newest : ∀ r ∈ result, Newest P p r ∧ excludeDate ≤ r.jobEnd
  once : (result.map fun r => toLower r.name).Nodup
  complete : ∀ a, P a → p a = true → ∃ r, Newest P p r ∧
    toLower r.name = toLower a.name ∧ (excludeDate ≤ r.jobEnd → r ∈ result)

theorem lastStates_recentTasks (h : Order le) (hall : Orderly all)
    (hplain : ∀ s ∈ all, ∀ t ∈ s.tasks, ∀ c ∈ t.1, Wildcard.isSpecial c = false)
    {jobs : List Job} {id name : Text}
    (hjob : (jobs.filter fun j => like j.id id).map Job.name = [name]) (excludeDate : Nat) :
    LastStates (Attempt startDate all) (fun r => like r.jobName name) excludeDate
      (recentTasks le jobs (taskRows (backupSessions le startDate all)) excludeDate id) := by
  have hcovers := covers_taskRows startDate h hall
  have hrows := plainNames_taskRows startDate h hall hplain
  have hresult : recentTasks le jobs (taskRows (backupSessions le startDate all)) excludeDate id =
      (backuptaskUnique le (taskRows (backupSessions le startDate all)) Row.jobName name).filter
        fun r => excludeDate ≤ r.jobEnd := by
    have hname : [' '].intercalate [name] = name := by simp [List.intercalate]
    unfold recentTasks
    rw [hjob]
    simp only [hname]
  have hnewest : ∀ r ∈ backuptaskUnique le (taskRows (backupSessions le startDate all))
      Row.jobName name, Newest (Attempt startDate all) (fun r => like r.jobName name) r :=
      fun r hr =>
    hcovers.newest (fun r r' hjob => by rw [hjob]) (mem_backuptaskUnique hrows _ _ hr)
  rw [hresult]
  constructor
  · intro r hr
    obtain ⟨hr, hrecent⟩ := List.mem_filter.mp hr
    exact ⟨hnewest r hr, of_decide_eq_true hrecent⟩
  · exact (nodup_backuptaskUnique hrows _ _).sublist (List.filter_sublist.map _)
  · intro a ha hasked
    obtain ⟨r, hr, hjobName, -, hname, -⟩ := hcovers.covers a ha
    obtain ⟨r', hr', hname'⟩ := exists_mem_backuptaskUnique hrows Row.jobName name hr
      (hjobName ▸ hasked)
    exact ⟨r', hnewest r' hr', hname'.trans hname, fun hrecent =>
      List.mem_filter.mpr ⟨hr', decide_eq_true hrecent⟩⟩

end Recent

/-- The job of the night, as a copy job. -/
def nightlyJob : Job := ⟨"7".toList, "Nightly".toList, "BackupSync".toList, true⟩

end OpsScripts.Veeam
