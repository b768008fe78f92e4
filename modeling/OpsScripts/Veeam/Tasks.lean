import OpsScripts.Core.LastWrites
import OpsScripts.Core.Wildcard
import OpsScripts.Veeam.Status

/-!
# Tasks of `zabbix_vbr_job.ps1`

A job backs up its machines in a session with a task for each of them, and failed sessions are
retried in sessions of their own. The export merges the tasks of the retries into those of their
session; a query asks the export for the last state of a machine. Neither step loses the newest
attempt.
-/

namespace OpsScripts.Veeam

/-! ## The export -/

/-- The result of a session. -/
inductive Result where
  | none
  | success
  | warning
  | failed
  deriving DecidableEq

/-- The name of a result. -/
def Result.value : Result → Text
  | .none => "None".toList
  | .success => "Success".toList
  | .warning => "Warning".toList
  | .failed => "Failed".toList

/-- What a task knows of its session, `JobSess`. -/
structure JobSess where
  name : Text
  result : Result
  creationTime : Nat
  endTime : Nat
  deriving DecidableEq

structure TaskSession where
  jobSess : JobSess
  name : Text
  status : Text
  deriving DecidableEq

structure BackupSession extends JobSess where
  id : Nat
  originalSessionId : Nat
  isRetryMode : Bool
  jobName : Text
  jobId : Text
  /-- The machines and their states. -/
  tasks : List (Text × Text)

/-- `Get-VBRTaskSession`. -/
def BackupSession.taskSessions (s : BackupSession) : List TaskSession :=
  s.tasks.map fun t => ⟨s.toJobSess, t.1, t.2⟩

/-- A row of `backuptaskswithretry.xml`. -/
structure Row where
  jobName : Text
  jobId : Text
  sessionName : Text
  jobResult : Result
  jobStart : Nat
  jobEnd : Nat
  name : Text
  status : Text
  deriving DecidableEq

/-- `Select-Object …`, where the job is that of the session. -/
def Row.select (s : BackupSession) (t : TaskSession) : Row where
  jobName := s.jobName
  jobId := s.jobId
  sessionName := t.jobSess.name
  jobResult := t.jobSess.result
  jobStart := t.jobSess.creationTime
  jobEnd := t.jobSess.endTime
  name := t.name
  status := t.status

section Script

variable [Culture]
-- the order of names in the culture of the host
variable (le : Text → Text → Bool)

/-- `Sort-Object JobName, CreationTime`. -/
def byJobAndTime (s s' : BackupSession) : Bool :=
  if le s.jobName s'.jobName && le s'.jobName s.jobName then
    decide (s.creationTime ≤ s'.creationTime)
  else le s.jobName s'.jobName

/-- `$BackupSessions`. -/
def backupSessions (startDate : Nat) (all : List BackupSession) : List BackupSession :=
  (all.filter fun s => startDate ≤ s.creationTime).mergeSort (byJobAndTime le)

/-- `$RetrySessions`. -/
def retrySessions (sessions : List BackupSession) (s : BackupSession) : List BackupSession :=
  sessions.filter fun r => r.isRetryMode && r.originalSessionId == s.id

/-- The name of a task, compared without case. -/
def TaskSession.key (t : TaskSession) : Text := toLower t.name

/-- `$TaskSessions` behind the loops over the retries. -/
def mergedTasks (sessions : List BackupSession) (s : BackupSession) : List TaskSession :=
  if s.result = .failed then
    (retrySessions sessions s).foldl
      (fun tasks r => r.taskSessions.foldl (supersede TaskSession.key) tasks) s.taskSessions
  else s.taskSessions

/-- The rows of the export. -/
def taskRows (sessions : List BackupSession) : List Row :=
  (sessions.filter fun s => !s.isRetryMode).flatMap fun s =>
    (mergedTasks sessions s).map (Row.select s)

/-- `veeam-backuptask-unique`. -/
def backuptaskUnique (rows : List Row) (jobtype : Row → Text) (id : Text) : List Row :=
  let xml1 := rows.filter fun r => like (jobtype r) id
  -- one of the names that differ in case only
  let unique := lasts toLower ((xml1.map Row.name).mergeSort le)
  unique.filterMap fun object =>
    ((xml1.filter fun r => like r.name object).mergeSort fun a b => b.jobStart ≤ a.jobStart).head?

/-- `VmResultBackup` and `VmResultBackupSync`. -/
def vmResultBackup (rows : List Row) (id id0 : Text) : Text :=
  let result := (backuptaskUnique le rows Row.jobName id0).filter fun r => like r.name id
  match result.getLast? with
  | none => "4".toList
  | some r => veeamStatusReplace r.status

/-- `ResultBackup`. -/
def resultBackup (rows : List Row) (id : Text) : Text :=
  let query1 := ((rows.filter fun r => like r.jobId id).mergeSort fun a b =>
    b.jobStart ≤ a.jobStart).head?
  match query1 with
  | none => "4".toList
  | some r => veeamStatusReplace r.jobResult.value

end Script

/-! ## Merging retries -/

section Merge

variable [Culture] {sessions : List BackupSession} {s : BackupSession}

/-- The attempts of a session: its tasks, and if it failed those of its retries. -/
def attempts (sessions : List BackupSession) (s : BackupSession) : List TaskSession :=
  s.taskSessions ++
    if s.result = .failed then (retrySessions sessions s).flatMap BackupSession.taskSessions else []

/-- Task by task over all retries. -/
theorem mergedTasks_eq_foldl (sessions : List BackupSession) (s : BackupSession) :
    ∃ retries, attempts sessions s = s.taskSessions ++ retries ∧
      mergedTasks sessions s = retries.foldl (supersede TaskSession.key) s.taskSessions := by
  refine ⟨_, rfl, ?_⟩
  unfold mergedTasks
  split_ifs
  · rw [List.foldl_flatMap]
  · rfl

/-- The export has a machine of a session once exactly if the session itself has; then it has the
last attempt of each machine, whatever was retried. -/
theorem mergedTasks_lasts (sessions : List BackupSession) (s : BackupSession) :
    (((mergedTasks sessions s).map TaskSession.key).Nodup ↔
        (s.taskSessions.map TaskSession.key).Nodup) ∧
      ((s.taskSessions.map TaskSession.key).Nodup →
        mergedTasks sessions s = lasts TaskSession.key (attempts sessions s)) := by
  obtain ⟨retries, hattempts, hmerged⟩ := mergedTasks_eq_foldl sessions s
  rw [hattempts, hmerged]
  exact ⟨nodup_foldl_supersede_iff _ retries, fun h => foldl_supersede_eq_lasts h retries⟩

end Merge

/-! ## The newest attempts -/

/-- The names of a culture are ordered. -/
structure Order (le : Text → Text → Bool) : Prop where
  trans : ∀ a b c, le a b → le b c → le a c
  total : ∀ a b, (le a b || le b a) = true

section Order

variable {le : Text → Text → Bool} {startDate : Nat} {all : List BackupSession}

theorem byJobAndTime_total (h : Order le) (s s' : BackupSession) :
    (byJobAndTime le s s' || byJobAndTime le s' s) = true := by
  have htotal := h.total s.jobName s'.jobName
  unfold byJobAndTime
  rw [Bool.and_comm (le s'.jobName s.jobName)]
  split_ifs with hsame
  · simpa using Nat.le_total s.creationTime s'.creationTime
  · exact htotal

theorem byJobAndTime_trans (h : Order le) (a b c : BackupSession)
    (hab : byJobAndTime le a b = true) (hbc : byJobAndTime le b c = true) :
    byJobAndTime le a c = true := by
  have hname : ∀ {s s' : BackupSession}, byJobAndTime le s s' = true →
      le s.jobName s'.jobName = true ∧
        (le s'.jobName s.jobName = true → s.creationTime ≤ s'.creationTime) := by
    intro s s' hs
    unfold byJobAndTime at hs
    split_ifs at hs with hsame
    · rw [Bool.and_eq_true] at hsame
      exact ⟨hsame.1, fun _ => of_decide_eq_true hs⟩
    · exact ⟨hs, fun hback => absurd (Bool.and_eq_true_iff.mpr ⟨hs, hback⟩) hsame⟩
  obtain ⟨hle, htime⟩ := hname hab
  obtain ⟨hle', htime'⟩ := hname hbc
  have hac := h.trans _ _ _ hle hle'
  unfold byJobAndTime
  split_ifs with hsame
  · rw [Bool.and_eq_true] at hsame
    have hba := h.trans _ _ _ hle' hsame.2
    have hcb := h.trans _ _ _ hsame.2 hle
    exact decide_eq_true (Nat.le_trans (htime hba) (htime' hcb))
  · exact hac

/-- Sessions of one job stand in the order of time. -/
theorem pairwise_backupSessions (h : Order le) :
    (backupSessions le startDate all).Pairwise fun s s' =>
      s.jobName = s'.jobName → s.creationTime ≤ s'.creationTime := by
  have hsorted : (backupSessions le startDate all).Pairwise fun s s' =>
      byJobAndTime le s s' = true :=
    List.pairwise_mergeSort (byJobAndTime_trans h) (byJobAndTime_total h) _
  refine hsorted.imp ?_
  intro s s' hs hname
  have hself : le s.jobName s.jobName = true := by simpa using h.total s.jobName s.jobName
  unfold byJobAndTime at hs
  rw [← hname, hself, Bool.and_self, if_pos rfl] at hs
  exact of_decide_eq_true hs

theorem mem_backupSessions {s : BackupSession} :
    s ∈ backupSessions le startDate all ↔ s ∈ all ∧ startDate ≤ s.creationTime := by
  rw [backupSessions, List.mem_mergeSort, List.mem_filter, decide_eq_true_eq]

end Order

section Newest

variable [Culture]

/-- What the backup server keeps to: a session has a machine once, and a retry belongs to the job
of its session and is not earlier. -/
structure Orderly (all : List BackupSession) : Prop where
  distinct : ∀ s ∈ all, (s.taskSessions.map TaskSession.key).Nodup
  retries : ∀ s ∈ all, ∀ r ∈ all, r.isRetryMode = true → r.originalSessionId = s.id →
    r.jobName = s.jobName ∧ s.creationTime ≤ r.creationTime

/-- A machine and its state in a run of a session: the session itself or a retry. -/
def ran (s run : BackupSession) (t : Text × Text) : Row where
  jobName := s.jobName
  jobId := s.jobId
  sessionName := run.name
  jobResult := run.result
  jobStart := run.creationTime
  jobEnd := run.endTime
  name := t.1
  status := t.2

/-- The attempts since a day: the machines of the sessions that have begun since then, and if such
a session failed those of its retries. -/
inductive Attempt (startDate : Nat) (all : List BackupSession) : Row → Prop
  | own {s : BackupSession} {t : Text × Text} (hs : s ∈ all) (hfirst : s.isRetryMode = false)
      (hsince : startDate ≤ s.creationTime) (ht : t ∈ s.tasks) : Attempt startDate all (ran s s t)
  | retry {s r : BackupSession} {t : Text × Text} (hs : s ∈ all) (hfirst : s.isRetryMode = false)
      (hsince : startDate ≤ s.creationTime) (hfailed : s.result = .failed) (hr : r ∈ all)
      (hretry : r.isRetryMode = true) (horiginal : r.originalSessionId = s.id) (ht : t ∈ r.tasks) :
      Attempt startDate all (ran s r t)

/-- The newest row of a machine, among those that are asked for. -/
structure Newest (P : Row → Prop) (p : Row → Bool) (r : Row) : Prop where
  holds : P r
  asked : p r = true
  newest : ∀ r', P r' → p r' = true → toLower r'.name = toLower r.name → r'.jobStart ≤ r.jobStart

/-- Some rows are enough to find the newest ones of others. -/
structure Covers (rows : List Row) (P : Row → Prop) : Prop where
  holds : ∀ r ∈ rows, P r
  covers : ∀ a, P a → ∃ r ∈ rows, r.jobName = a.jobName ∧ r.jobId = a.jobId ∧
    toLower r.name = toLower a.name ∧ a.jobStart ≤ r.jobStart

variable {le : Text → Text → Bool} {startDate : Nat} {all : List BackupSession}

/-- The attempts of a session stand in the order of time. -/
theorem pairwise_attempts (h : Order le) (hall : Orderly all) {s : BackupSession}
    (hs : s ∈ backupSessions le startDate all) :
    (attempts (backupSessions le startDate all) s).Pairwise fun t t' =>
      t.jobSess.creationTime ≤ t'.jobSess.creationTime := by
  have hsession : ∀ r : BackupSession, ∀ t ∈ r.taskSessions, t.jobSess = r.toJobSess := by
    intro r t ht
    obtain ⟨_, -, rfl⟩ := List.mem_map.mp ht
    rfl
  have hwithin : ∀ r : BackupSession, r.taskSessions.Pairwise fun t t' =>
      t.jobSess.creationTime ≤ t'.jobSess.creationTime := by
    intro r
    refine List.pairwise_of_forall_mem_list fun t ht t' ht' => ?_
    rw [hsession r t ht, hsession r t' ht']
  have hretry : ∀ r ∈ retrySessions (backupSessions le startDate all) s,
      r.jobName = s.jobName ∧ s.creationTime ≤ r.creationTime := by
    intro r hr
    obtain ⟨hmem, hr⟩ := List.mem_filter.mp hr
    rw [Bool.and_eq_true, beq_iff_eq] at hr
    exact hall.retries s (mem_backupSessions.mp hs).1 r (mem_backupSessions.mp hmem).1 hr.1 hr.2
  unfold attempts
  split_ifs
  · rw [List.pairwise_append, List.pairwise_flatMap]
    refine ⟨hwithin s, ⟨fun r _ => hwithin r, ?_⟩, ?_⟩
    · have hsub : (retrySessions (backupSessions le startDate all) s).Sublist
          (backupSessions le startDate all) := List.filter_sublist
      refine ((pairwise_backupSessions h).sublist hsub).imp_of_mem ?_
      intro r r' hr hr' htime t ht t' ht'
      rw [hsession r t ht, hsession r' t' ht']
      exact htime ((hretry r hr).1.trans (hretry r' hr').1.symm)
    · intro t ht t' ht'
      obtain ⟨r, hr, ht'⟩ := List.mem_flatMap.mp ht'
      rw [hsession s t ht, hsession r t' ht']
      exact (hretry r hr).2
  · rw [List.append_nil]
    exact hwithin s

omit [Culture] in
/-- A task of a run is exported under the job of its session. -/
theorem select_eq_ran {s r : BackupSession} {u : TaskSession} (hu : u ∈ r.taskSessions) :
    ∃ t ∈ r.tasks, Row.select s u = ran s r t := by
  obtain ⟨t, ht, rfl⟩ := List.mem_map.mp hu
  exact ⟨t, ht, rfl⟩

variable (le) in
/-- The attempts are those of the sessions that the export goes through; a retry has not begun
before its session. -/
theorem attempt_iff (hall : Orderly all) {a : Row} : Attempt startDate all a ↔
    ∃ s ∈ backupSessions le startDate all, s.isRetryMode = false ∧
      ∃ u ∈ attempts (backupSessions le startDate all) s, a = Row.select s u := by
  constructor
  · intro ha
    cases ha with
    | @own s t hs hfirst hsince ht =>
      exact ⟨s, mem_backupSessions.mpr ⟨hs, hsince⟩, hfirst, _,
        List.mem_append_left _ (List.mem_map_of_mem ht), rfl⟩
    | @retry s r t hs hfirst hsince hfailed hr hretry horiginal ht =>
      have hlater := (hall.retries s hs r hr hretry horiginal).2
      refine ⟨s, mem_backupSessions.mpr ⟨hs, hsince⟩, hfirst, ⟨r.toJobSess, t.1, t.2⟩,
        List.mem_append_right _ ?_, rfl⟩
      rw [if_pos hfailed]
      refine List.mem_flatMap.mpr ⟨r, List.mem_filter.mpr ⟨?_, ?_⟩, List.mem_map_of_mem ht⟩
      · exact mem_backupSessions.mpr ⟨hr, hsince.trans hlater⟩
      · rw [hretry, horiginal, Bool.true_and, beq_self_eq_true]
  · rintro ⟨s, hs, hfirst, u, hu, rfl⟩
    obtain ⟨hs, hsince⟩ := mem_backupSessions.mp hs
    rcases List.mem_append.mp hu with hu | hu
    · obtain ⟨t, ht, heq⟩ := select_eq_ran (s := s) hu
      rw [heq]
      exact .own hs hfirst hsince ht
    · split_ifs at hu with hfailed
      · obtain ⟨r, hr, hu⟩ := List.mem_flatMap.mp hu
        obtain ⟨hr, hretry⟩ := List.mem_filter.mp hr
        rw [Bool.and_eq_true, beq_iff_eq] at hretry
        obtain ⟨t, ht, heq⟩ := select_eq_ran (s := s) hu
        rw [heq]
        exact .retry hs hfirst hsince hfailed (mem_backupSessions.mp hr).1 hretry.1 hretry.2 ht
      · cases hu

/-- The export is enough to find the newest attempts. -/
theorem covers_taskRows (startDate : Nat) (h : Order le) (hall : Orderly all) :
    Covers (taskRows (backupSessions le startDate all)) (Attempt startDate all) := by
  have hlasts : ∀ s ∈ backupSessions le startDate all,
      mergedTasks (backupSessions le startDate all) s =
        lasts TaskSession.key (attempts (backupSessions le startDate all) s) := fun s hs =>
    (mergedTasks_lasts _ s).2 (hall.distinct s (mem_backupSessions.mp hs).1)
  constructor
  · intro r hr
    obtain ⟨s, hs, hr⟩ := List.mem_flatMap.mp hr
    obtain ⟨u, hu, rfl⟩ := List.mem_map.mp hr
    obtain ⟨hs, hfirst⟩ := List.mem_filter.mp hs
    rw [hlasts s hs] at hu
    rw [Bool.not_eq_true'] at hfirst
    exact (attempt_iff le hall).mpr ⟨s, hs, hfirst, u, (lasts_sublist _).subset hu, rfl⟩
  · intro a ha
    obtain ⟨s, hs, hfirst, u, hu, rfl⟩ := (attempt_iff le hall).mp ha
    have horder := (pairwise_attempts h hall hs).imp
      (S := fun t t' => TaskSession.key t = TaskSession.key t' →
        t.jobSess.creationTime ≤ t'.jobSess.creationTime) fun htime _ => htime
    obtain ⟨u', hu', hkey, htime⟩ := exists_newest
      (R := fun t t' => t.jobSess.creationTime ≤ t'.jobSess.creationTime)
      (fun _ => Nat.le_refl _) horder hu
    rw [← hlasts s hs] at hu'
    have hmem : s ∈ (backupSessions le startDate all).filter fun s => !s.isRetryMode :=
      List.mem_filter.mpr ⟨hs, by rw [hfirst, Bool.not_false]⟩
    exact ⟨Row.select s u', List.mem_flatMap.mpr ⟨s, hmem, List.mem_map_of_mem hu'⟩, rfl, rfl,
      hkey, htime⟩

end Newest

/-! ## What is served -/

section Descending

variable {rows : List Row}

/-- The first row in descending order is a newest one. -/
theorem head?_mergeSort_eq_some {r : Row}
    (h : (rows.mergeSort fun a b => b.jobStart ≤ a.jobStart).head? = some r) :
    r ∈ rows ∧ ∀ r' ∈ rows, r'.jobStart ≤ r.jobStart := by
  have htrans : ∀ a b c : Row, decide (b.jobStart ≤ a.jobStart) → decide (c.jobStart ≤ b.jobStart) →
      decide (c.jobStart ≤ a.jobStart) := by
    intro a b c hab hbc
    simp only [decide_eq_true_eq] at *
    omega
  have htotal : ∀ a b : Row,
      (decide (b.jobStart ≤ a.jobStart) || decide (a.jobStart ≤ b.jobStart)) := by
    intro a b
    simp only [Bool.or_eq_true, decide_eq_true_eq]
    omega
  have hsorted := List.pairwise_mergeSort htrans htotal rows
  obtain ⟨behind, hbehind⟩ := List.head?_eq_some_iff.mp h
  rw [hbehind] at hsorted
  refine ⟨List.mem_mergeSort.mp (hbehind ▸ List.mem_cons_self), fun r' hr' => ?_⟩
  rcases List.mem_cons.mp (hbehind ▸ List.mem_mergeSort.mpr hr') with rfl | hr'
  · exact le_rfl
  · simpa using List.rel_of_pairwise_cons hsorted hr'

theorem head?_mergeSort_eq_none
    (h : (rows.mergeSort fun a b => b.jobStart ≤ a.jobStart).head? = none) : rows = [] := by
  rw [List.head?_eq_none_iff] at h
  exact List.length_eq_zero_iff.mp (by rw [← List.length_mergeSort, h, List.length_nil])

end Descending

section Served

variable [Culture] {le : Text → Text → Bool} {rows : List Row}

/-- The names of machines are no patterns. -/
def PlainNames (rows : List Row) : Prop := ∀ r ∈ rows, ∀ c ∈ r.name, Wildcard.isSpecial c = false

variable (hplain : PlainNames rows) (jobtype : Row → Text) (id : Text)

include hplain

/-- A query has a newest row of each machine that is asked for, and of each machine one. -/
theorem mem_backuptaskUnique {r : Row} (hr : r ∈ backuptaskUnique le rows jobtype id) :
    Newest (fun r => r ∈ rows) (fun r => like (jobtype r) id) r := by
  obtain ⟨object, hobject, hr⟩ := List.mem_filterMap.mp hr
  have hname := List.mem_mergeSort.mp ((lasts_sublist _).subset hobject)
  obtain ⟨r₀, hr₀, rfl⟩ := List.mem_map.mp hname
  have hlike := like_literal (hplain r₀ (List.mem_of_mem_filter hr₀))
  obtain ⟨hmem, hnewest⟩ := head?_mergeSort_eq_some hr
  obtain ⟨hmem, hsame⟩ := List.mem_filter.mp hmem
  obtain ⟨hmem, hasked⟩ := List.mem_filter.mp hmem
  rw [hlike, eqIgnoreCase_iff] at hsame
  refine ⟨hmem, hasked, fun r' hr' hasked' hname' => hnewest r' (List.mem_filter.mpr ⟨?_, ?_⟩)⟩
  · exact List.mem_filter.mpr ⟨hr', hasked'⟩
  · rw [hlike, eqIgnoreCase_iff, hname', hsame]

/-- A query has each machine once. -/
theorem nodup_backuptaskUnique :
    ((backuptaskUnique le rows jobtype id).map fun r => toLower r.name).Nodup := by
  have hobject : ∀ object ∈ (rows.filter fun r => like (jobtype r) id).map Row.name, ∀ r,
      (((rows.filter fun r => like (jobtype r) id).filter fun r => like r.name object).mergeSort
        fun a b => b.jobStart ≤ a.jobStart).head? = some r → toLower r.name = toLower object := by
    intro object hobject r hr
    obtain ⟨r₀, hr₀, rfl⟩ := List.mem_map.mp hobject
    have hsame := (List.mem_filter.mp (head?_mergeSort_eq_some hr).1).2
    rwa [like_literal (hplain r₀ (List.mem_of_mem_filter hr₀)), eqIgnoreCase_iff] at hsame
  have hunique := nodup_lasts toLower
    (((rows.filter fun r => like (jobtype r) id).map Row.name).mergeSort le)
  rw [List.Nodup, List.pairwise_map] at hunique
  rw [List.Nodup, List.pairwise_map, backuptaskUnique, List.pairwise_filterMap]
  refine hunique.imp_of_mem ?_
  intro object object' hmem hmem' hne r hr r' hr' hname
  rw [hobject object (List.mem_mergeSort.mp ((lasts_sublist _).subset hmem)) r hr,
    hobject object' (List.mem_mergeSort.mp ((lasts_sublist _).subset hmem')) r' hr'] at hname
  exact hne hname

theorem exists_mem_backuptaskUnique {r : Row} (hr : r ∈ rows)
    (hasked : like (jobtype r) id = true) :
    ∃ r' ∈ backuptaskUnique le rows jobtype id, toLower r'.name = toLower r.name := by
  have hxml : r ∈ rows.filter fun r => like (jobtype r) id := List.mem_filter.mpr ⟨hr, hasked⟩
  have hname := List.mem_map_of_mem (f := Row.name) hxml
  obtain ⟨object, hobject, hname, -⟩ := exists_mem_lasts toLower (List.mem_mergeSort.mpr hname)
  have hmem := List.mem_mergeSort.mp ((lasts_sublist _).subset hobject)
  obtain ⟨r₀, hr₀, rfl⟩ := List.mem_map.mp hmem
  have hlike := like_literal (hplain r₀ (List.mem_of_mem_filter hr₀))
  cases hhead : ((((rows.filter fun r => like (jobtype r) id).filter fun r =>
      like r.name r₀.name).mergeSort fun a b => b.jobStart ≤ a.jobStart).head?) with
  | none =>
    have hempty := head?_mergeSort_eq_none hhead
    have hself : r₀ ∈ (rows.filter fun r => like (jobtype r) id).filter fun r =>
        like r.name r₀.name :=
      List.mem_filter.mpr ⟨hr₀, by rw [hlike, eqIgnoreCase_iff]⟩
    rw [hempty] at hself
    exact absurd hself List.not_mem_nil
  | some r' =>
    obtain ⟨hr', -⟩ := head?_mergeSort_eq_some hhead
    have hsame := (List.mem_filter.mp hr').2
    rw [hlike, eqIgnoreCase_iff] at hsame
    exact ⟨r', List.mem_filterMap.mpr ⟨_, hobject, hhead⟩, hsame.trans hname⟩

end Served

section Attempts

variable [Culture] {rows : List Row} {P : Row → Prop} {p : Row → Bool}

/-- A newest one of the rows is a newest one of all that they cover. -/
theorem Covers.newest (h : Covers rows P)
    (hp : ∀ r r' : Row, r.jobName = r'.jobName → p r = p r') {r : Row}
    (hr : Newest (fun r => r ∈ rows) p r) : Newest P p r := by
  refine ⟨h.holds r hr.holds, hr.asked, fun a ha hasked hname => ?_⟩
  obtain ⟨r', hr', hjob, -, hname', htime⟩ := h.covers a ha
  refine Nat.le_trans htime (hr.newest r' hr' ?_ (hname'.trans hname))
  rw [hp r' a hjob, hasked]

variable {le : Text → Text → Bool} {startDate : Nat} {all : List BackupSession}

omit [Culture] in
/-- The machines of the sessions and their states. -/
theorem Attempt.mem_tasks {a : Row} (ha : Attempt startDate all a) :
    ∃ s ∈ all, ∃ t ∈ s.tasks, a.name = t.1 ∧ a.status = t.2 := by
  cases ha with
  | @own s t hs _ _ ht => exact ⟨s, hs, t, ht, rfl, rfl⟩
  | @retry s r t _ _ _ _ hr _ _ ht => exact ⟨r, hr, t, ht, rfl, rfl⟩

theorem plainNames_taskRows (startDate : Nat) (h : Order le) (hall : Orderly all)
    (hplain : ∀ s ∈ all, ∀ t ∈ s.tasks, ∀ c ∈ t.1, Wildcard.isSpecial c = false) :
    PlainNames (taskRows (backupSessions le startDate all)) := by
  intro r hr
  have hcovers := covers_taskRows startDate h hall
  obtain ⟨s, hs, t, ht, hname, -⟩ := (hcovers.holds r hr).mem_tasks
  rw [hname]
  exact hplain s hs t ht

/-- The state of a machine is that of its newest attempt in the jobs asked for, retries included;
without an attempt there is no history. -/
theorem vmResultBackup_newest (h : Order le) (hall : Orderly all)
    (hplain : ∀ s ∈ all, ∀ t ∈ s.tasks, ∀ c ∈ t.1, Wildcard.isSpecial c = false) {id : Text}
    (hid : ∀ c ∈ id, Wildcard.isSpecial c = false) (id0 : Text) :
    let answer := vmResultBackup le (taskRows (backupSessions le startDate all)) id id0
    (answer = "4".toList ∧ ∀ a, Attempt startDate all a → like a.jobName id0 = true →
        toLower a.name ≠ toLower id) ∨
      ∃ a, Newest (Attempt startDate all) (fun r => like r.jobName id0) a ∧
        toLower a.name = toLower id ∧ answer = veeamStatusReplace a.status := by
  intro answer
  have hcovers := covers_taskRows startDate h hall
  have hrows := plainNames_taskRows startDate h hall hplain
  have hlike := like_literal hid
  cases hlast : ((backuptaskUnique le (taskRows (backupSessions le startDate all)) Row.jobName
      id0).filter fun r => like r.name id).getLast? with
  | none =>
    have hempty := List.getLast?_eq_none_iff.mp hlast
    refine Or.inl ⟨?_, fun a ha hasked hname => ?_⟩
    · change vmResultBackup le _ id id0 = _
      rw [vmResultBackup, hlast]
    · obtain ⟨r, hr, hjob, -, hname', -⟩ := hcovers.covers a ha
      obtain ⟨r', hr', hname''⟩ := exists_mem_backuptaskUnique hrows Row.jobName id0 hr
        (hjob ▸ hasked)
      have hself := List.filter_eq_nil_iff.mp hempty r' hr'
      rw [hlike, eqIgnoreCase_iff] at hself
      exact hself (hname''.trans (hname'.trans hname))
  | some r =>
    obtain ⟨hr, hname⟩ := List.mem_filter.mp (List.mem_of_getLast? hlast)
    rw [hlike, eqIgnoreCase_iff] at hname
    have hnewest := mem_backuptaskUnique hrows Row.jobName id0 hr
    refine Or.inr ⟨r, hcovers.newest (fun r r' hjob => by rw [hjob]) hnewest, hname, ?_⟩
    change vmResultBackup le _ id id0 = _
    rw [vmResultBackup, hlast]

/-- The result of a job is that of the session of its newest attempt, retries included. -/
theorem resultBackup_newest (h : Order le) (hall : Orderly all) (id : Text) :
    let answer := resultBackup (taskRows (backupSessions le startDate all)) id
    (answer = "4".toList ∧ ∀ a, Attempt startDate all a → like a.jobId id = false) ∨
      ∃ a, Attempt startDate all a ∧ like a.jobId id = true ∧
        (∀ a', Attempt startDate all a' → like a'.jobId id = true → a'.jobStart ≤ a.jobStart) ∧
        answer = veeamStatusReplace a.jobResult.value := by
  intro answer
  have hcovers := covers_taskRows startDate h hall
  cases hhead : (((taskRows (backupSessions le startDate all)).filter fun r =>
      like r.jobId id).mergeSort fun a b => b.jobStart ≤ a.jobStart).head? with
  | none =>
    have hempty := head?_mergeSort_eq_none hhead
    refine Or.inl ⟨?_, fun a ha => ?_⟩
    · change resultBackup _ id = _
      rw [resultBackup, hhead]
    · obtain ⟨r, hr, -, hjob, -⟩ := hcovers.covers a ha
      rw [← hjob, ← Bool.not_eq_true]
      exact List.filter_eq_nil_iff.mp hempty r hr
  | some r =>
    obtain ⟨hr, hnewest⟩ := head?_mergeSort_eq_some hhead
    obtain ⟨hr, hasked⟩ := List.mem_filter.mp hr
    refine Or.inr ⟨r, hcovers.holds r hr, hasked, fun a ha hasked' => ?_, ?_⟩
    · obtain ⟨r', hr', -, hjob, -, htime⟩ := hcovers.covers a ha
      refine Nat.le_trans htime (hnewest r' (List.mem_filter.mpr ⟨hr', ?_⟩))
      rw [hjob, hasked']
    · change resultBackup _ id = _
      rw [resultBackup, hhead]

end Attempts

/-! ## A night with a retry -/

/-- A session in which one of two machines failed. -/
def nightly : BackupSession where
  name := "Nightly".toList
  result := .failed
  creationTime := 10
  endTime := 11
  id := 1
  originalSessionId := 0
  isRetryMode := false
  jobName := "Nightly".toList
  jobId := "7".toList
  tasks := [("srv".toList, "Failed".toList), ("db".toList, "Success".toList)]

/-- The retry of the machine. -/
def nightlyRetry : BackupSession where
  name := "Nightly (Retry 1)".toList
  result := .success
  creationTime := 12
  endTime := 13
  id := 2
  originalSessionId := 1
  isRetryMode := true
  jobName := "Nightly".toList
  jobId := "7".toList
  tasks := [("srv".toList, "Success".toList)]

/-- The order of code points. -/
def codePoints : Text → Text → Bool
  | [], _ => true
  | _ :: _, [] => false
  | c :: s, d :: t => decide (c.toNat < d.toNat) || (c.toNat == d.toNat && codePoints s t)

theorem order_codePoints : Order codePoints where
  trans s t u hst htu := by
    induction s generalizing t u with
    | nil => rfl
    | cons c s ih =>
      cases t with
      | nil => cases hst
      | cons d t =>
        cases u with
        | nil => cases htu
        | cons e u =>
          simp only [codePoints, Bool.or_eq_true, decide_eq_true_eq, Bool.and_eq_true,
            beq_iff_eq] at hst htu ⊢
          rcases hst with hst | ⟨hcd, hst⟩
          · exact Or.inl (by omega)
          · rcases htu with htu | ⟨hde, htu⟩
            · exact Or.inl (by omega)
            · exact Or.inr ⟨by omega, ih t u hst htu⟩
  total s t := by
    induction s generalizing t with
    | nil => rfl
    | cons c s ih =>
      cases t with
      | nil => rfl
      | cons d t =>
        have htail := ih t
        simp only [codePoints, Bool.or_eq_true, decide_eq_true_eq, Bool.and_eq_true,
          beq_iff_eq] at htail ⊢
        rcases Nat.lt_trichotomy c.toNat d.toNat with hcd | hcd | hcd
        · exact Or.inl (Or.inl hcd)
        · exact htail.imp (fun h => Or.inr ⟨hcd, h⟩) fun h => Or.inr ⟨hcd.symm, h⟩
        · exact Or.inr (Or.inl hcd)

theorem orderly_nightly : @Orderly Culture.ascii [nightly, nightlyRetry] := by
  let _ := Culture.ascii
  constructor
  · decide
  · decide

theorem vmResultBackup_newest_nightly :
    letI := Culture.ascii
    let all := [nightly, nightlyRetry]
    let answer := vmResultBackup codePoints (taskRows (backupSessions codePoints 0 all))
      "srv".toList "nightly".toList
    (answer = "4".toList ∧ ∀ a, Attempt 0 all a → like a.jobName "nightly".toList = true →
        toLower a.name ≠ toLower "srv".toList) ∨
      ∃ a, Newest (Attempt 0 all) (fun r => like r.jobName "nightly".toList) a ∧
        toLower a.name = toLower "srv".toList ∧ answer = veeamStatusReplace a.status :=
  letI := Culture.ascii
  vmResultBackup_newest order_codePoints orderly_nightly (by decide) (by decide) "nightly".toList

theorem resultBackup_newest_nightly :
    letI := Culture.ascii
    let all := [nightly, nightlyRetry]
    let answer := resultBackup (taskRows (backupSessions codePoints 0 all)) "7".toList
    (answer = "4".toList ∧ ∀ a, Attempt 0 all a → like a.jobId "7".toList = false) ∨
      ∃ a, Attempt 0 all a ∧ like a.jobId "7".toList = true ∧
        (∀ a', Attempt 0 all a' → like a'.jobId "7".toList = true → a'.jobStart ≤ a.jobStart) ∧
        answer = veeamStatusReplace a.jobResult.value :=
  letI := Culture.ascii
  resultBackup_newest order_codePoints orderly_nightly "7".toList

end OpsScripts.Veeam
