import Mathlib.Data.Fintype.Basic

/-!
# The copy jobs as statement lists

Each script is a list of statements. Jumps name the position they go to, and the
position after the wait loop is the start of the body. The statements that only
touch files or write logs are commands without effect on the scheduler.
-/

namespace OpsScripts.FileSync

/-- The tasks of the scheduler, one for each script. -/
inductive Task
  /-- `CopyToDisk.ps1` -/
  | toDisk
  /-- `toDisaster.ps1` -/
  | syncToDisaster
  /-- `RegionToDisaster.ps1` -/
  | regionToDisaster
  /-- `MonthsDiskBackup.ps1` -/
  | disk30days
  /-- `IPTest.ps1` -/
  | ipTest
  deriving DecidableEq

instance : Fintype Task where
  elems := {.toDisk, .syncToDisaster, .regionToDisaster, .disk30days, .ipTest}
  complete t := by cases t <;> decide

/-- What `(Get-ScheduledTask ...).State` returns. -/
inductive TaskState
  | unknown
  | disabled
  | queued
  | ready
  | running
  deriving DecidableEq

/-- The two adapters the scripts switch. -/
inductive Adapter
  | backup
  | backupsql
  deriving DecidableEq

/-- Commands on files and on the network. -/
inductive Command
  | formatVolume
  | removeItem
  | newItem
  | robocopy
  | copyItem
  | testConnection
  | outFile
  deriving DecidableEq

/-- A statement of a script. Variables are named after the task whose state they are for. -/
inductive Statement
  /-- `$var = Get-ScheduledTask task | foreach {$_.State}` -/
  | getScheduledTask (var task : Task)
  /-- `IF ($var -eq 'Running') {`, which goes to `target` otherwise -/
  | ifRunning (var : Task) (target : Nat)
  /-- `} Until ($var -eq 'Ready')`, which goes back to `target` otherwise -/
  | untilReady (var : Task) (target : Nat)
  /-- `} Until ($a+$b+$c -eq total)`, where a summand is 0 for a variable that is
  `'Running'` and 1 for any other -/
  | untilSum (vars : List Task) (total target : Nat)
  /-- `if (...) {` over the file system, the date or the network -/
  | ifElse (target : Nat)
  | startSleep (seconds : Nat)
  | enableNetAdapter (name : Adapter)
  | disableNetAdapter (name : Adapter)
  | command (c : Command)
  | restartComputer
  | exit
  deriving DecidableEq

open Statement Command

/-- The wait loop of a script: `$polled` first takes the state of the task `first`. -/
def waitLoop (polled first : Task) (seconds : Nat) : List Statement :=
  [getScheduledTask polled first,
   ifRunning polled 5,
   getScheduledTask polled polled,
   startSleep seconds,
   untilReady polled 2]

/-- `CopyToDisk.ps1` after its wait loop. A `foreach` over files is one command. -/
def copyToDiskBody : List Statement :=
  [ifElse 35, -- disk G: is there
   command formatVolume,
   startSleep 60,
   enableNetAdapter .backup,
   startSleep 100,
   command testConnection,
   command outFile,
   disableNetAdapter .backup,
   startSleep 15,
   command newItem,
   command robocopy, -- E:\SQL
   command robocopy, -- Backup_Cisco
   command robocopy, -- Job DISASTER
   command robocopy, -- MdemonConfigBackup
   command robocopy, -- VeeamConfigBackup
   command newItem,
   command copyItem, -- *.vbm
   command robocopy, -- *.vbk
   command outFile,
   command outFile,
   command outFile,
   enableNetAdapter .backup,
   startSleep 100,
   command testConnection,
   command outFile,
   command outFile,
   command copyItem,
   startSleep 100,
   disableNetAdapter .backup,
   exit,
   enableNetAdapter .backup, -- no disk
   startSleep 100,
   command testConnection,
   command outFile,
   startSleep 100,
   disableNetAdapter .backup,
   exit]

/-- `toDisaster.ps1` after its wait loop. -/
def toDisasterBody : List Statement :=
  [enableNetAdapter .backup,
   startSleep 30,
   command testConnection,
   startSleep 77,
   command outFile,
   ifElse 20, -- neither Saturday nor Sunday
   command removeItem,
   command robocopy, -- veeam
   command robocopy, -- VeeamInfinite
   command robocopy, -- Backup
   command removeItem,
   command robocopy, -- VEEAMzip, last *.vbk
   command robocopy, -- VEEAMzip, *.vbm
   command robocopy, -- zabbix
   command robocopy, -- VMZeepTasks
   enableNetAdapter .backupsql,
   startSleep 100,
   command testConnection,
   command robocopy, -- SQL
   disableNetAdapter .backupsql,
   command outFile,
   command outFile,
   command outFile,
   disableNetAdapter .backup,
   exit]

/-- `RegionToDisaster.ps1` after its wait loop. -/
def regionToDisasterBody : List Statement :=
  [enableNetAdapter .backup,
   startSleep 30,
   command testConnection,
   startSleep 77,
   command outFile,
   command robocopy,
   command outFile,
   command outFile,
   disableNetAdapter .backup,
   exit]

/-- `MonthsDiskBackup.ps1`, which waits for no other job. -/
def monthsDiskBackup : List Statement :=
  [ifElse 19, -- disk F: is there
   enableNetAdapter .backup,
   startSleep 100,
   command testConnection,
   command outFile,
   disableNetAdapter .backup,
   startSleep 15,
   command removeItem,
   startSleep 15,
   command copyItem,
   startSleep 15,
   enableNetAdapter .backup,
   startSleep 15,
   command testConnection,
   command outFile,
   command outFile,
   startSleep 15,
   disableNetAdapter .backup,
   exit,
   enableNetAdapter .backup, -- no disk
   startSleep 15,
   command testConnection,
   command outFile,
   disableNetAdapter .backup,
   exit]

/-- `IPTest.ps1`. Its loop tests what the three variables had before the loop. -/
def ipTest : List Statement :=
  [getScheduledTask .syncToDisaster .syncToDisaster,
   getScheduledTask .toDisk .toDisk,
   getScheduledTask .disk30days .disk30days,
   startSleep 300,
   untilSum [.toDisk, .syncToDisaster, .disk30days] 3 3,
   enableNetAdapter .backup,
   startSleep 200,
   ifElse 11, -- no answer
   disableNetAdapter .backup,
   startSleep 30,
   restartComputer,
   disableNetAdapter .backup,
   startSleep 30,
   exit]

/-- The script of a task. In `CopyToDisk.ps1` the variable `$SyncToDisaster` first
takes the state of `ToDisk`, the task of the script itself. -/
def script : Task → List Statement
  | .toDisk => waitLoop .syncToDisaster .toDisk 1800 ++ copyToDiskBody
  | .syncToDisaster => waitLoop .toDisk .toDisk 600 ++ toDisasterBody
  | .regionToDisaster => waitLoop .toDisk .toDisk 1800 ++ regionToDisasterBody
  | .disk30days => monthsDiskBackup
  | .ipTest => ipTest

/-- The first position behind the wait loop. -/
def bodyStart : Task → Nat
  | .disk30days => 0
  | _ => 5

/-- The script of `t` reads the state of `u` into the variable of `u`. -/
def Polls (t u : Task) : Prop := getScheduledTask u u ∈ script t

instance (t u : Task) : Decidable (Polls t u) := inferInstanceAs (Decidable (_ ∈ _))

/-- The statement at position `p` reads no task state and jumps only forward. -/
def Statement.Forward (p : Nat) : Statement → Prop
  | getScheduledTask _ _ => False
  | ifRunning _ target => p < target
  | untilReady _ target => p < target
  | untilSum _ _ target => p < target
  | ifElse target => p < target
  | _ => True

instance (p : Nat) (c : Statement) : Decidable (c.Forward p) := by
  cases c <;> unfold Statement.Forward <;> infer_instance

/-- Behind the wait loop every script runs straight to its end. -/
theorem forward_of_bodyStart {t : Task} {p : Nat} {c : Statement} (h : (script t)[p]? = some c)
    (hp : bodyStart t ≤ p) : c.Forward p := by
  have hall : ∀ t, ∀ p, (hlt : p < (script t).length) → bodyStart t ≤ p →
      (script t)[p].Forward p := by decide
  obtain ⟨hlt, rfl⟩ := List.getElem?_eq_some_iff.mp h
  exact hall t p hlt hp

/-- No script touches the adapter before its body. -/
theorem bodyStart_le_of_enable {t : Task} {p : Nat}
    (h : (script t)[p]? = some (enableNetAdapter .backup)) : bodyStart t ≤ p := by
  have hall : ∀ t, ∀ p, (hlt : p < (script t).length) →
      (script t)[p] = enableNetAdapter .backup → bodyStart t ≤ p := by decide
  obtain ⟨hlt, hc⟩ := List.getElem?_eq_some_iff.mp h
  exact hall t p hlt hc

/-- Only `ToDisk` and `SyncToDisaster` poll each other. -/
theorem polls_polls_iff {t u : Task} : (t ≠ u ∧ Polls t u ∧ Polls u t) ↔
    (t = .toDisk ∧ u = .syncToDisaster) ∨ (t = .syncToDisaster ∧ u = .toDisk) := by
  revert t u
  decide

/-- A script with a wait loop, statement by statement. -/
theorem getElem?_waitLoop {polled first : Task} {seconds p : Nat} {body : List Statement}
    {c : Statement} (h : (waitLoop polled first seconds ++ body)[p]? = some c) :
    (p = 0 ∧ c = getScheduledTask polled first) ∨
    (p = 1 ∧ c = ifRunning polled 5) ∨
    (p = 2 ∧ c = getScheduledTask polled polled) ∨
    (p = 3 ∧ c = startSleep seconds) ∨
    (p = 4 ∧ c = untilReady polled 2) ∨ 5 ≤ p := by
  rcases p with _ | _ | _ | _ | _ | p <;> simp_all [waitLoop]

end OpsScripts.FileSync
