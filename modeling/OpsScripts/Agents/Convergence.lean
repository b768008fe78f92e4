import OpsScripts.Agents.Installers

/-!
# Where the installers converge

A run of an installer may be cut off between any two of its commands. A directory without
a service, or a service without a directory, is never repaired: the first block asks for
neither to exist, and the second one creates none of them. An installed agent is upgraded
only where its marker is missing or empty, whatever the marker says otherwise.
-/

namespace OpsScripts.Agents

section Convergence

variable [Culture]

/-- The service is registered, and executable and marker are of the wanted version. -/
def Installed (agent : Agent) (h : Host) : Prop :=
  h.service.isSome ∧ h.folder = some ⟨some agent.target, some [agent.target]⟩

/-- A complete run reaches the wanted state from whatever a run leaves that is cut off, and
does nothing in that state. -/
def Converges (agent : Agent) (computerName : Text) (h : Host) (k : Nat) : Prop :=
  Installed agent (agent.run computerName (agent.interrupted computerName k h)) ∧
    (Installed agent h → agent.commands computerName h = [])

/-- Directory and service exist; the marker says nothing, or executable and marker are of the
wanted version. -/
def Upgradable (agent : Agent) (h : Host) : Prop :=
  h.service.isSome ∧ ∃ folder, h.folder = some folder ∧
    (truthy folder.version = false ∨ folder = ⟨some agent.target, some [agent.target]⟩)

/-- The number of commands up to the one that registers the service. -/
def registered : Nat := 4

/-- Nothing is there and the run is not cut off between creating the directory and
registering the service, or everything is there. -/
def Repairable (agent : Agent) (h : Host) (k : Nat) : Prop :=
  (h = ⟨none, none⟩ ∧ (k = 0 ∨ registered ≤ k)) ∨ Upgradable agent h

variable {agent : Agent} {computerName : Text} {h : Host}

/-- Nothing is done where the agent is installed. -/
theorem commands_of_installed (hinstalled : Installed agent h) :
    agent.commands computerName h = [] := by
  obtain ⟨hservice, hfolder⟩ := hinstalled
  have hpresent : h ≠ ⟨none, none⟩ := by
    rintro rfl
    cases hservice
  have htruthy : truthy (h.folder.bind Folder.version) = true := by
    rw [hfolder]
    cases agent <;> decide
  rw [commands_of_present hpresent, if_pos htruthy]

/-! ## Where only one of the two exists -/

/-- Exactly one of directory and service exists. -/
def Stuck (h : Host) : Prop := h.folder.isSome ≠ h.service.isSome

/-- The second block neither creates a directory nor registers a service. -/
theorem stuck_exec {target : Text} {s : Session} {c : Command}
    (hc : c ∈ agent.upgrade computerName) (hs : Stuck s.host) :
    Stuck (exec target s c).host := by
  obtain ⟨⟨folder, service⟩, located⟩ := s
  have hkept : ∀ f : Folder → Folder,
      Stuck (Session.copy ⟨⟨folder, service⟩, located⟩ f).host := by
    intro f
    unfold Session.copy
    split
    · rwa [Stuck, Option.isSome_map]
    · exact hs
  cases c with
  | setLocation =>
    rw [exec]
    split <;> exact hs
  | copyAll => exact hkept _
  | copyBinary => exact hkept _
  | copyVersion => exact hkept _
  | copyConf => exact hs
  | setRecovery => exact hs
  | startService =>
    rw [exec]
    split
    · rwa [Stuck, Option.isSome_map]
    · exact hs
  | stopService => rwa [exec, Stuck, Option.isSome_map]
  | newItem | runInstall | newService =>
    cases agent <;> simp [Agent.upgrade, confCommands] at hc

omit [Culture] in
theorem Stuck.ne_absent (hs : Stuck h) : h ≠ ⟨none, none⟩ := by
  rintro rfl
  exact hs rfl

/-- A run that is cut off leaves exactly one of the two. -/
theorem Stuck.interrupted (hs : Stuck h) (agent : Agent) (computerName : Text) (k : Nat) :
    Stuck (agent.interrupted computerName k h) := by
  rw [Agent.interrupted, commands_of_present hs.ne_absent]
  split
  · rwa [List.take_nil]
  · exact Interruption.Throughout.take (P := fun s : Session => Stuck s.host)
      (Interruption.throughout_of_step (fun _ hc _ => stuck_exec hc) hs) k

/-- A complete run is one that is cut off at its end. -/
theorem interrupted_length (agent : Agent) (computerName : Text) (h : Host) :
    agent.interrupted computerName (agent.commands computerName h).length h =
      agent.run computerName h := by
  rw [Agent.interrupted, List.take_length, Agent.run]

omit [Culture] in
theorem Stuck.not_installed (hs : Stuck h) : ¬Installed agent h := by
  rintro ⟨hservice, hfolder⟩
  rw [Stuck, hservice, hfolder] at hs
  exact hs rfl

theorem Stuck.not_installed_run (hs : Stuck h) :
    ¬Installed agent (agent.run computerName h) := by
  rw [← interrupted_length]
  exact (hs.interrupted agent computerName _).not_installed

/-! ## Where both exist -/

omit [Culture] in
theorem upgradable_of_empty {version : Option (List Text)} (h : truthy version = false)
    (agent : Agent) (binary : Option Text) (running : Bool) :
    Upgradable agent ⟨some ⟨binary, version⟩, some running⟩ :=
  ⟨rfl, ⟨binary, version⟩, rfl, Or.inl h⟩

omit [Culture] in
theorem upgradable_of_current (agent : Agent) (running : Bool) :
    Upgradable agent ⟨some ⟨some agent.target, some [agent.target]⟩, some running⟩ :=
  ⟨rfl, _, rfl, Or.inr rfl⟩

/-- Any part of the second block leaves a marker that says nothing, or it brings both files to
the wanted version. -/
theorem upgrade_throughout {version : Option (List Text)} (hversion : truthy version = false)
    (agent : Agent) (computerName : Text) (binary : Option Text) (running : Bool) :
    Interruption.Throughout (exec agent.target) (fun s : Session => Upgradable agent s.host)
      ⟨⟨some ⟨binary, version⟩, some running⟩, false⟩ (agent.upgrade computerName) := by
  have hempty := upgradable_of_empty hversion agent
  have hcurrent := upgradable_of_current agent
  cases agent with
  | zabbix =>
    exact ⟨hempty _ _, hempty _ _, hempty _ _, hempty _ _, hempty _ _, hcurrent _⟩
  | fluentbit =>
    rw [Agent.upgrade, confCommands]
    split
    · exact ⟨hempty _ _, hempty _ _, hempty _ _, hcurrent _, hcurrent _, hcurrent _, hcurrent _⟩
    · exact ⟨hempty _ _, hempty _ _, hempty _ _, hcurrent _, hcurrent _, hcurrent _⟩

/-- The second block brings both files to the wanted version and starts the service. -/
theorem foldl_upgrade (binary : Option Text) (version : Option (List Text)) (running : Bool)
    (agent : Agent) (computerName : Text) :
    (agent.upgrade computerName).foldl (exec agent.target)
        ⟨⟨some ⟨binary, version⟩, some running⟩, false⟩ =
      ⟨⟨some ⟨some agent.target, some [agent.target]⟩, some true⟩, true⟩ := by
  cases agent with
  | zabbix => rfl
  | fluentbit =>
    rw [Agent.upgrade, confCommands]
    split <;> rfl

/-- A host where both exist has a marker that says nothing, or nothing is done. -/
theorem commands_of_both (binary : Option Text) (version : Option (List Text)) (running : Bool)
    (agent : Agent) (computerName : Text) :
    agent.commands computerName ⟨some ⟨binary, version⟩, some running⟩ =
      if truthy version then [] else agent.upgrade computerName :=
  commands_of_present fun h => by cases congrArg Host.folder h

/-- An upgradable host stays upgradable in a run that is cut off. -/
theorem Upgradable.interrupted (hu : Upgradable agent h) (computerName : Text) (k : Nat) :
    Upgradable agent (agent.interrupted computerName k h) := by
  obtain ⟨folder, service⟩ := h
  obtain ⟨hservice, ⟨binary, version⟩, rfl, hstate⟩ := hu
  obtain ⟨running, rfl⟩ := Option.isSome_iff_exists.mp hservice
  rw [Agent.interrupted, commands_of_both]
  cases htruthy : truthy version with
  | true =>
    rw [if_pos rfl, List.take_nil]
    exact ⟨hservice, _, rfl, hstate⟩
  | false => exact (upgrade_throughout htruthy agent computerName binary running).take k

/-- A complete run installs the agent on an upgradable host. -/
theorem Upgradable.installed_run (hu : Upgradable agent h) (computerName : Text) :
    Installed agent (agent.run computerName h) := by
  obtain ⟨folder, service⟩ := h
  obtain ⟨hservice, ⟨binary, version⟩, rfl, hstate⟩ := hu
  obtain ⟨running, rfl⟩ := Option.isSome_iff_exists.mp hservice
  rw [Agent.run, commands_of_both]
  cases htruthy : truthy version with
  | true =>
    rcases hstate with hempty | hcurrent
    · rw [htruthy] at hempty
      cases hempty
    · rw [if_pos rfl]
      exact ⟨rfl, congrArg some hcurrent⟩
  | false =>
    rw [if_neg Bool.false_ne_true, foldl_upgrade]
    exact ⟨rfl, rfl⟩

omit [Culture] in
theorem Installed.upgradable (hi : Installed agent h) : Upgradable agent h :=
  ⟨hi.1, _, hi.2, Or.inr rfl⟩

/-! ## Where nothing exists -/

/-- Both first blocks create the directory, fill it and register the service; what follows
changes no file. -/
theorem install_eq (agent : Agent) (computerName : Text) :
    ∃ register rest, agent.install computerName =
        [.newItem, .setLocation, .copyAll, register] ++ rest ∧
      ([.newItem, .setLocation, .copyAll, register].foldl (exec agent.target)
        ⟨⟨none, none⟩, false⟩).host =
          ⟨some ⟨some agent.target, some [agent.target]⟩, some false⟩ ∧
      ∀ c ∈ rest, c = .setRecovery ∨ c = .copyConf ∨ c = .startService := by
  cases agent with
  | zabbix =>
    refine ⟨.runInstall, [.setRecovery, .startService], rfl, rfl, fun c hc => ?_⟩
    simp only [List.mem_cons, List.not_mem_nil, or_false] at hc
    rcases hc with rfl | rfl
    · exact Or.inl rfl
    · exact Or.inr (Or.inr rfl)
  | fluentbit =>
    refine ⟨.newService, .setRecovery :: confCommands computerName ++ [.startService], rfl, rfl,
      fun c hc => ?_⟩
    simp only [List.cons_append, List.mem_cons, List.mem_append, List.not_mem_nil, or_false] at hc
    rcases hc with rfl | hc | rfl
    · exact Or.inl rfl
    · rw [confCommands] at hc
      split at hc
      · exact Or.inr (Or.inl (List.mem_singleton.mp hc))
      · cases hc
    · exact Or.inr (Or.inr rfl)

/-- A run that is cut off before the service is registered leaves a directory alone. -/
theorem stuck_interrupted_absent (agent : Agent) (computerName : Text) {k : Nat} (hk : k ≠ 0)
    (hlt : k < registered) : Stuck (agent.interrupted computerName k ⟨none, none⟩) := by
  obtain ⟨j, rfl⟩ := Nat.exists_eq_succ_of_ne_zero hk
  have hj : j ≤ [Command.setLocation, .copyAll].length :=
    Nat.lt_succ_iff.mp (Nat.lt_of_succ_lt_succ hlt)
  obtain ⟨register, rest, hinstall, -, -⟩ := install_eq agent computerName
  have hsplit : agent.install computerName =
      .newItem :: ([.setLocation, .copyAll] ++ register :: rest) := hinstall
  have hstuck : Interruption.Throughout (exec agent.target) (fun s : Session => Stuck s.host)
      ⟨⟨some ⟨none, none⟩, none⟩, false⟩ [.setLocation, .copyAll] :=
    ⟨Bool.noConfusion, Bool.noConfusion, Bool.noConfusion⟩
  rw [Agent.interrupted, commands_of_absent, hsplit, Nat.succ_eq_add_one, List.take_succ_cons,
    List.take_append_of_le_length hj]
  exact hstuck.take j

omit [Culture] in
/-- The commands behind the registration keep the agent installed. -/
theorem Installed.exec {s : Session} (hi : Installed agent s.host) {c : Command}
    (hc : c = .setRecovery ∨ c = .copyConf ∨ c = .startService) :
    Installed agent (exec agent.target s c).host := by
  rcases hc with rfl | rfl | rfl
  · exact hi
  · exact hi
  · rw [Agents.exec]
    split
    · exact ⟨by rw [Option.isSome_map]; exact hi.1, hi.2⟩
    · exact hi

/-- A run that is cut off later has installed the agent. -/
theorem installed_interrupted_absent (agent : Agent) (computerName : Text) {k : Nat}
    (hle : registered ≤ k) : Installed agent (agent.interrupted computerName k ⟨none, none⟩) := by
  obtain ⟨register, rest, hinstall, hhost, hrest⟩ := install_eq agent computerName
  have hi : Installed agent ([Command.newItem, .setLocation, .copyAll, register].foldl
      (exec agent.target) ⟨⟨none, none⟩, false⟩).host := by
    rw [hhost]
    exact ⟨rfl, rfl⟩
  rw [Agent.interrupted, commands_of_absent, hinstall, Interruption.foldl_take_append _ _ _ hle]
  exact Interruption.Throughout.take (P := fun s : Session => Installed agent s.host)
    (Interruption.throughout_of_step (fun c hc _ hs => hs.exec (hrest c hc)) hi) _

theorem installed_run_absent (agent : Agent) (computerName : Text) :
    Installed agent (agent.run computerName ⟨none, none⟩) := by
  rw [Agent.run, commands_of_absent, foldl_install]
  exact ⟨rfl, rfl⟩

/-! ## The condition -/

/-- Where both exist and the agent is not upgradable, nothing is ever done. -/
theorem upgradable_of_installed_run (hfolder : h.folder.isSome) (hservice : h.service.isSome)
    {k : Nat} (hi : Installed agent (agent.run computerName (agent.interrupted computerName k h))) :
    Upgradable agent h := by
  obtain ⟨folder, service⟩ := h
  obtain ⟨⟨binary, version⟩, rfl⟩ := Option.isSome_iff_exists.mp hfolder
  obtain ⟨running, rfl⟩ := Option.isSome_iff_exists.mp hservice
  cases htruthy : truthy version with
  | false => exact upgradable_of_empty htruthy agent binary running
  | true =>
    have hidle : agent.commands computerName ⟨some ⟨binary, version⟩, some running⟩ = [] := by
      rw [commands_of_both, if_pos htruthy]
    have hsame : agent.interrupted computerName k ⟨some ⟨binary, version⟩, some running⟩ =
        ⟨some ⟨binary, version⟩, some running⟩ := by
      rw [Agent.interrupted, hidle, List.take_nil]
      rfl
    rw [hsame, Agent.run, hidle] at hi
    exact hi.upgradable

/-- The installers converge from exactly the repairable hosts. -/
theorem converges_iff (agent : Agent) (computerName : Text) (h : Host) (k : Nat) :
    Converges agent computerName h k ↔ Repairable agent h k := by
  constructor
  · rintro ⟨hinstalled, -⟩
    by_cases habsent : h = ⟨none, none⟩
    · subst habsent
      refine Or.inl ⟨rfl, ?_⟩
      by_contra hcut
      rw [not_or, Nat.not_le] at hcut
      exact (stuck_interrupted_absent agent computerName hcut.1 hcut.2).not_installed_run hinstalled
    · refine Or.inr ?_
      by_cases hstuck : Stuck h
      · exact absurd hinstalled (hstuck.interrupted agent computerName k).not_installed_run
      · obtain ⟨folder, service⟩ := h
        rw [Stuck, not_not] at hstuck
        cases folder with
        | none =>
          cases service with
          | none => exact absurd rfl habsent
          | some _ => cases hstuck
        | some _ => exact upgradable_of_installed_run rfl hstuck.symm hinstalled
  · rintro (⟨rfl, rfl | hle⟩ | hu)
    · exact ⟨installed_run_absent agent computerName, commands_of_installed⟩
    · have hi := installed_interrupted_absent agent computerName hle
      exact ⟨hi.upgradable.installed_run computerName, commands_of_installed⟩
    · exact ⟨(hu.interrupted computerName k).installed_run computerName, commands_of_installed⟩

end Convergence

section Example

local instance asciiHosts : Culture := Culture.ascii

/-- An agent of an older version is kept, and neither a directory without a service nor a run
that is cut off behind its first command is made up for. -/
theorem not_converges :
    ¬Converges .zabbix "SRV1".toList
        ⟨some ⟨some "6.0.14".toList, some ["6.0.14".toList]⟩, some true⟩ 0 ∧
      ¬Converges .fluentbit "SRV1".toList ⟨some ⟨none, none⟩, none⟩ 0 ∧
      ¬Converges .zabbix "SRV1".toList ⟨none, none⟩ 1 := by
  refine ⟨fun h => ?_, fun h => ?_, fun h => ?_⟩
  · obtain ⟨-, folder, hfolder, hstate⟩ :=
      upgradable_of_installed_run (k := 0) rfl rfl h.1
    obtain rfl := Option.some.inj hfolder
    rcases hstate with hempty | hcurrent
    · exact absurd hempty (by decide)
    · exact absurd (congrArg Folder.version hcurrent) (by decide)
  · have hstuck : Stuck ⟨some ⟨none, none⟩, none⟩ := Bool.noConfusion
    exact (hstuck.interrupted .fluentbit "SRV1".toList 0).not_installed_run h.1
  · have hstuck := stuck_interrupted_absent .zabbix "SRV1".toList Nat.one_ne_zero (by decide)
    exact hstuck.not_installed_run h.1

end Example

end OpsScripts.Agents
