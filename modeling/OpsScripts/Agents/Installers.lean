import OpsScripts.Core.Interruption
import OpsScripts.Core.Wildcard

/-!
# The agent installers

Two scripts that install an agent and keep it at a version. The first block runs where
neither the directory nor the service exists. The guard of the second one negates what
`Get-Content` returns before it compares, and the comparison of a truth value with a text
asks whether both are true; so it looks at the marker's presence only. The share holds
the files of the wanted version.
-/

namespace OpsScripts.Agents

/-! ## The host -/

/-- The files of the installation directory: the version of the executable and the lines of
the marker. -/
structure Folder where
  binary : Option Text
  version : Option (List Text)
  deriving DecidableEq

/-- The installation directory, and whether the service that is registered is running. -/
structure Host where
  folder : Option Folder
  service : Option Bool
  deriving DecidableEq

/-- A run of the script: the host, and whether `$LOCATION` is the current directory. -/
structure Session where
  host : Host
  located : Bool
  deriving DecidableEq

/-- The commands of both scripts. -/
inductive Command where
  | newItem
  | setLocation
  | copyAll
  | copyBinary
  | copyVersion
  | copyConf
  | runInstall
  | newService
  | setRecovery
  | startService
  | stopService
  deriving DecidableEq

/-- A service that is running keeps its executable from being replaced. -/
def Folder.withBinary (folder : Folder) (service : Option Bool) (target : Text) : Folder :=
  if service = some true then folder else { folder with binary := some target }

/-- Change the files of the current directory if that is `$LOCATION`. -/
def Session.copy (s : Session) (f : Folder → Folder) : Session :=
  if s.located then { s with host.folder := s.host.folder.map f } else s

/-- The executable is in the installation directory. -/
def Host.hasBinary (h : Host) : Bool := h.folder.any fun folder => folder.binary.isSome

/-- One command; a command that raises an error leaves everything. -/
def exec (target : Text) (s : Session) : Command → Session
  | .newItem => { s with host.folder := s.host.folder.or (some ⟨none, none⟩) }
  | .setLocation => if s.host.folder.isSome then { s with located := true } else s
  | .copyAll => s.copy fun folder =>
      { folder.withBinary s.host.service target with version := some [target] }
  | .copyBinary => s.copy fun folder => folder.withBinary s.host.service target
  | .copyVersion => s.copy fun folder => { folder with version := some [target] }
  | .copyConf => s
  | .runInstall =>
    if s.located && s.host.hasBinary then
      { s with host.service := s.host.service.or (some false) }
    else s
  | .newService => { s with host.service := s.host.service.or (some false) }
  | .setRecovery => s
  | .startService =>
    if s.host.hasBinary then { s with host.service := s.host.service.map fun _ => true } else s
  | .stopService => { s with host.service := s.host.service.map fun _ => false }

/-! ## The scripts -/

/-- Whether what `Get-Content` returns is true: no line is false, a single line is true if it
is not empty, and so are several lines. -/
def truthy : Option (List Text) → Bool
  | none => false
  | some [] => false
  | some [line] => !line.isEmpty
  | some _ => true

/-- `!(Test-Path …) -and !(Get-Service …)`. -/
def isAbsent (s : Session) : Bool := s.host.folder.isNone && s.host.service.isNone

/-- `!(Get-Content -Path "$LOCATION\Version") -eq "…"`. -/
def versionCheck (target : Text) (s : Session) : Bool :=
  (!truthy (s.host.folder.bind Folder.version)) == (!target.isEmpty)

/-- The two scripts. -/
inductive Agent where
  | zabbix
  | fluentbit
  deriving DecidableEq

/-- `$ZBX_VERSION` and `$FLUENT_BIT`. -/
def Agent.target : Agent → Text
  | .zabbix => "6.4.4".toList
  | .fluentbit => "2.1.9".toList

section Scripts

variable [Culture]

/-- `$pc`, whose text ends in the call that was meant. -/
def pc (computerName : Text) : Text := computerName ++ ".ToLower()".toList

/-- The computers that get the configuration for development. -/
def isDev (pc : Text) : Bool :=
  like pc "*DEV*".toList || like pc "srvost5*".toList || like pc "srvnrd5*".toList

/-- The copy of that configuration. -/
def confCommands (computerName : Text) : List Command :=
  if isDev (pc computerName) then [.copyConf] else []

/-- The first block. -/
def Agent.install (computerName : Text) : Agent → List Command
  | .zabbix => [.newItem, .setLocation, .copyAll, .runInstall] ++ [.setRecovery, .startService]
  | .fluentbit => [.newItem, .setLocation, .copyAll, .newService] ++
      (.setRecovery :: confCommands computerName ++ [.startService])

/-- The second block. -/
def Agent.upgrade (computerName : Text) : Agent → List Command
  | .zabbix => [.setLocation, .stopService, .copyBinary, .startService, .copyVersion]
  | .fluentbit => [.setLocation, .stopService, .copyAll] ++
      (confCommands computerName ++ [.startService, .copyVersion])

/-- The script. -/
def Agent.script (agent : Agent) (computerName : Text) :
    List (Interruption.Block Session Command) :=
  [⟨isAbsent, agent.install computerName⟩,
    ⟨versionCheck agent.target, agent.upgrade computerName⟩]

/-- The commands that a run on a host executes. -/
def Agent.commands (agent : Agent) (computerName : Text) (h : Host) : List Command :=
  Interruption.executed (exec agent.target) (agent.script computerName) ⟨h, false⟩

/-- The host behind a complete run. -/
def Agent.run (agent : Agent) (computerName : Text) (h : Host) : Host :=
  ((agent.commands computerName h).foldl (exec agent.target) ⟨h, false⟩).host

/-- The host that a run leaves when it is cut off behind `k` commands. -/
def Agent.interrupted (agent : Agent) (computerName : Text) (k : Nat) (h : Host) : Host :=
  (((agent.commands computerName h).take k).foldl (exec agent.target) ⟨h, false⟩).host

/-! ## The commands of a run -/

variable {agent : Agent} {computerName : Text} {h : Host}

omit [Culture] in
/-- The guard of the second block does not look at the version. -/
theorem versionCheck_eq (agent : Agent) (s : Session) :
    versionCheck agent.target s = !truthy (s.host.folder.bind Folder.version) := by
  have hne : agent.target.isEmpty = false := by cases agent <;> rfl
  rw [versionCheck, hne]
  exact beq_true _

/-- The host behind the first block on a host with nothing. -/
theorem foldl_install (agent : Agent) (computerName : Text) :
    (agent.install computerName).foldl (exec agent.target) ⟨⟨none, none⟩, false⟩ =
      ⟨⟨some ⟨some agent.target, some [agent.target]⟩, some true⟩, true⟩ := by
  cases agent with
  | zabbix => rfl
  | fluentbit =>
    rw [Agent.install, confCommands]
    split <;> rfl

/-- Where nothing is there, a run is the first block. -/
theorem commands_of_absent (agent : Agent) (computerName : Text) :
    agent.commands computerName ⟨none, none⟩ = agent.install computerName := by
  have habsent : isAbsent ⟨⟨none, none⟩, false⟩ = true := rfl
  have hcurrent : versionCheck agent.target
      ⟨⟨some ⟨some agent.target, some [agent.target]⟩, some true⟩, true⟩ = false := by
    cases agent <;> decide
  rw [Agent.commands, Agent.script, Interruption.executed_of_true habsent, foldl_install,
    Interruption.executed_of_false hcurrent]
  exact List.append_nil _

/-- Elsewhere it is the second block or nothing. -/
theorem commands_of_present (hpresent : h ≠ ⟨none, none⟩) :
    agent.commands computerName h =
      if truthy (h.folder.bind Folder.version) then [] else agent.upgrade computerName := by
  have habsent : isAbsent ⟨h, false⟩ = false := by
    rw [← Bool.not_eq_true]
    intro habsent
    obtain ⟨folder, service⟩ := h
    obtain ⟨hfolder, hservice⟩ := Bool.and_eq_true_iff.mp habsent
    rw [Option.isNone_iff_eq_none] at hfolder hservice
    exact hpresent (congrArg₂ Host.mk hfolder hservice)
  have hcheck := versionCheck_eq agent ⟨h, false⟩
  rw [Agent.commands, Agent.script, Interruption.executed_of_false habsent]
  cases htruthy : truthy (h.folder.bind Folder.version) with
  | true =>
    rw [htruthy] at hcheck
    rw [Interruption.executed_of_false hcheck]
    rfl
  | false =>
    rw [htruthy] at hcheck
    rw [Interruption.executed_of_true hcheck]
    exact List.append_nil _

end Scripts

end OpsScripts.Agents
