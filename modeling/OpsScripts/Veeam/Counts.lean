import OpsScripts.Core.Counting
import OpsScripts.Core.DateTime
import OpsScripts.Veeam.Tasks

/-!
# Counts of `zabbix_vbr_job.ps1`

Two modes count the machines of a job, all of them or those with a state, and a third mode gives
the state of one machine as a number. They use the same query, so their answers go together.
-/

namespace OpsScripts.Veeam

section Script

variable [Culture] (le : Text → Text → Bool)

/-- `VmCount`. -/
def vmCount (rows : List Row) (id : Text) : Text :=
  decimal (backuptaskUnique le rows Row.jobName id).length

/-- `VmCountResultBackup` and `VmCountResultBackupSync`. -/
def vmCountResultBackup (rows : List Row) (id id0 : Text) : Text :=
  decimal ((backuptaskUnique le rows Row.jobName id).filter fun r => like r.status id0).length

end Script

/-! ## States -/

section States

variable [Culture]

/-- A state of the table is asked for by its name, and no other state answers to it. -/
theorem like_state {status : Text} (hstatus : status ∈ veeamStatus.map Prod.fst)
    {e : Text × Text} (he : e ∈ veeamStatus) : like status e.1 = true ↔ status = e.1 := by
  have hplain : ∀ e ∈ veeamStatus, (∀ c ∈ e.1, Wildcard.isSpecial c = false) ∧
      isAscii e.1 = true := by decide
  have hapart : ∀ e ∈ veeamStatus, ∀ e' ∈ veeamStatus,
      e.1.map Char.toLower = e'.1.map Char.toLower → e.1 = e'.1 := by decide
  obtain ⟨e', he', rfl⟩ := List.mem_map.mp hstatus
  rw [like_literal (hplain e he).1, eqIgnoreCase_ascii (hplain e' he').2 (hplain e he).2,
    beq_iff_eq]
  exact ⟨hapart e' he' e he, congrArg _⟩

omit [Culture] in
/-- The number of a state. -/
theorem veeamStatusReplace_eq_iff {status : Text} (hstatus : status ∈ veeamStatus.map Prod.fst)
    (number : Text) : veeamStatusReplace status = number ↔
      status ∈ (veeamStatus.filter fun e => e.2 = number).map Prod.fst := by
  obtain ⟨e, he, rfl⟩ := List.mem_map.mp hstatus
  rw [veeamStatusReplace_state e he]
  constructor
  · rintro rfl
    exact List.mem_map_of_mem (List.mem_filter.mpr ⟨he, decide_eq_true rfl⟩)
  · intro hmem
    obtain ⟨e', he', heq⟩ := List.mem_map.mp hmem
    obtain ⟨he', hnumber⟩ := List.mem_filter.mp he'
    have hkeys : (veeamStatus.map Prod.fst).Nodup := by decide
    rw [← List.inj_on_of_nodup_map hkeys he' he heq]
    exact of_decide_eq_true hnumber

/-- Rows are counted state by state. -/
theorem sum_states {result : List Row} {es : List (Text × Text)} {p : Row → Bool}
    (hstates : ∀ r ∈ result, r.status ∈ veeamStatus.map Prod.fst) (hes : es.Sublist veeamStatus)
    (hp : ∀ r ∈ result, p r = true ↔ r.status ∈ es.map Prod.fst) :
    (es.map fun e => (result.filter fun r => like r.status e.1).length).sum =
      result.countP p := by
  have hkeys : (veeamStatus.map Prod.fst).Nodup := by decide
  rw [← sum_countP (hkeys.sublist (hes.map _)) Row.status hp, List.map_map]
  congr 1
  apply List.map_congr_left
  intro e he
  rw [← List.countP_eq_length_filter]
  apply List.countP_congr
  intro r hr
  rw [like_state (hstates r hr) (hes.subset he), decide_eq_true_eq]

end States

section Agree

variable [Culture] {le : Text → Text → Bool} {rows : List Row} {id : Text}

/-- The query for one machine has the state of its row. -/
theorem vmResultBackup_of_mem (hplain : PlainNames rows) {r : Row}
    (hr : r ∈ backuptaskUnique le rows Row.jobName id) {machine : Text}
    (hmachine : ∀ c ∈ machine, Wildcard.isSpecial c = false)
    (hname : toLower r.name = toLower machine) :
    vmResultBackup le rows machine id = veeamStatusReplace r.status := by
  have hlike := like_literal hmachine
  rw [vmResultBackup]
  cases hlast : ((backuptaskUnique le rows Row.jobName id).filter fun r =>
      like r.name machine).getLast? with
  | none =>
    have hempty := List.filter_eq_nil_iff.mp (List.getLast?_eq_none_iff.mp hlast) r hr
    rw [hlike, eqIgnoreCase_iff] at hempty
    exact absurd hname hempty
  | some r' =>
    obtain ⟨hr', hname'⟩ := List.mem_filter.mp (List.mem_of_getLast? hlast)
    rw [hlike, eqIgnoreCase_iff] at hname'
    rw [List.inj_on_of_nodup_map (nodup_backuptaskUnique hplain _ _) hr' hr
      (hname'.trans hname.symm)]

variable {startDate : Nat} {all : List BackupSession}

/-- The machines of the jobs asked for, each once, in any spelling of its name. -/
structure Machines (P : Row → Prop) (id : Text) (machines : List Text) : Prop where
  once : (machines.map toLower).Nodup
  asked : ∀ k, k ∈ machines.map toLower ↔ ∃ a, P a ∧ like a.jobName id = true ∧ toLower a.name = k
  plain : ∀ m ∈ machines, ∀ c ∈ m, Wildcard.isSpecial c = false

/-- The query has a row for each machine. -/
theorem Machines.perm {machines : List Text} (h : Order le) (hall : Orderly all)
    (hplain : ∀ s ∈ all, ∀ t ∈ s.tasks, ∀ c ∈ t.1, Wildcard.isSpecial c = false)
    (hmachines : Machines (Attempt startDate all) id machines) :
    (machines.map toLower).Perm
      ((backuptaskUnique le (taskRows (backupSessions le startDate all)) Row.jobName id).map
        fun r => toLower r.name) := by
  have hcovers := covers_taskRows startDate h hall
  have hrows := plainNames_taskRows startDate h hall hplain
  rw [List.perm_ext_iff_of_nodup hmachines.once (nodup_backuptaskUnique hrows _ _)]
  intro k
  rw [hmachines.asked, List.mem_map]
  constructor
  · rintro ⟨a, ha, hasked, rfl⟩
    obtain ⟨r, hr, hjob, -, hname, -⟩ := hcovers.covers a ha
    obtain ⟨r', hr', hname'⟩ := exists_mem_backuptaskUnique hrows Row.jobName id hr
      (hjob ▸ hasked)
    exact ⟨r', hr', hname'.trans hname⟩
  · rintro ⟨r, hr, rfl⟩
    have hnewest := mem_backuptaskUnique hrows Row.jobName id hr
    exact ⟨r, hcovers.holds r hnewest.holds, hnewest.asked, rfl⟩

/-- The states of the rows of the query are those of the table. -/
theorem status_mem (h : Order le) (hall : Orderly all)
    (hplain : ∀ s ∈ all, ∀ t ∈ s.tasks, ∀ c ∈ t.1, Wildcard.isSpecial c = false)
    (hstatus : ∀ s ∈ all, ∀ t ∈ s.tasks, t.2 ∈ veeamStatus.map Prod.fst) {r : Row}
    (hr : r ∈ backuptaskUnique le (taskRows (backupSessions le startDate all)) Row.jobName id) :
    r.status ∈ veeamStatus.map Prod.fst := by
  have hnewest := mem_backuptaskUnique (plainNames_taskRows startDate h hall hplain) _ _ hr
  have hattempt := (covers_taskRows startDate h hall).holds r hnewest.holds
  obtain ⟨s, hs, t, ht, -, hstate⟩ := hattempt.mem_tasks
  rw [hstate]
  exact hstatus s hs t ht

/-- The counts of the states add up to the number of machines, and those of the states of a number
to how many machines have this number when they are asked one by one. -/
theorem vmCounts_agree (h : Order le) (hall : Orderly all)
    (hplain : ∀ s ∈ all, ∀ t ∈ s.tasks, ∀ c ∈ t.1, Wildcard.isSpecial c = false)
    (hstatus : ∀ s ∈ all, ∀ t ∈ s.tasks, t.2 ∈ veeamStatus.map Prod.fst) {machines : List Text}
    (hmachines : Machines (Attempt startDate all) id machines) :
    let rows := taskRows (backupSessions le startDate all)
    vmCount le rows id = decimal machines.length ∧
      ∃ count : Text → Nat,
        (∀ state, vmCountResultBackup le rows id state = decimal (count state)) ∧
        (veeamStatus.map fun e => count e.1).sum = machines.length ∧
        ∀ number, machines.countP (fun m => vmResultBackup le rows m id = number) =
          ((veeamStatus.filter fun e => e.2 = number).map fun e => count e.1).sum := by
  intro rows
  have hrows := plainNames_taskRows startDate h hall hplain
  have hperm := hmachines.perm h hall hplain
  have hlength := hperm.length_eq
  rw [List.length_map, List.length_map] at hlength
  have hstates : ∀ r ∈ backuptaskUnique le rows Row.jobName id,
      r.status ∈ veeamStatus.map Prod.fst := fun r hr => status_mem h hall hplain hstatus hr
  refine ⟨by rw [vmCount, hlength], fun state =>
    ((backuptaskUnique le rows Row.jobName id).filter fun r => like r.status state).length,
    fun _ => rfl, ?_, fun number => ?_⟩
  · rw [sum_states hstates (List.Sublist.refl _) fun r hr => iff_of_true rfl (hstates r hr),
      hlength, List.countP_true]
  · rw [sum_states hstates List.filter_sublist fun r hr => ?_]
    · exact countP_eq_of_perm hperm fun m hm r hr hname => by
        rw [vmResultBackup_of_mem hrows hr (hmachines.plain m hm) hname.symm]
    · rw [decide_eq_true_eq, veeamStatusReplace_eq_iff (hstates r hr)]

end Agree

theorem vmCounts_agree_nightly :
    letI := Culture.ascii
    let rows := taskRows (backupSessions codePoints 0 [nightly, nightlyRetry])
    vmCount codePoints rows "Nightly".toList = decimal 2 ∧ ∃ count : Text → Nat,
      vmCountResultBackup codePoints rows "Nightly".toList "Success".toList =
        decimal (count "Success".toList) ∧ (veeamStatus.map fun e => count e.1).sum = 2 := by
  let _ := Culture.ascii
  have hmachines : Machines (Attempt 0 [nightly, nightlyRetry]) "Nightly".toList
      ["srv".toList, "DB".toList] := by
    refine ⟨by decide, fun k => ⟨?_, ?_⟩, by decide⟩
    · have hfirst : ∀ t ∈ nightly.tasks,
          Attempt 0 [nightly, nightlyRetry] (ran nightly nightly t) := fun t ht =>
        .own List.mem_cons_self rfl (Nat.zero_le _) ht
      intro hk
      rcases List.mem_cons.mp hk with rfl | hk
      · exact ⟨_, hfirst _ List.mem_cons_self, by decide, by decide⟩
      · obtain rfl := List.mem_singleton.mp hk
        exact ⟨_, hfirst _ (List.mem_cons_of_mem _ List.mem_cons_self), by decide, by decide⟩
    · rintro ⟨a, ha, -, rfl⟩
      obtain ⟨s, hs, t, ht, hname, -⟩ := ha.mem_tasks
      have hall : ∀ s ∈ [nightly, nightlyRetry], ∀ t ∈ s.tasks,
          toLower t.1 ∈ ["srv".toList, "DB".toList].map toLower := by decide
      rw [hname]
      exact hall s hs t ht
  obtain ⟨hcount, count, hstate, hsum, -⟩ := vmCounts_agree order_codePoints orderly_nightly
    (by decide) (by decide) hmachines
  exact ⟨hcount, count, hstate _, hsum⟩

end OpsScripts.Veeam
