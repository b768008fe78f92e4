import OpsScripts.AddUser.Credentials
import OpsScripts.AddUser.History
import OpsScripts.Core.Evolution

/-!
# Starts of `adduser.ps1`

A start compares `Org.csv` with the newest snapshot, keeps the new one, lets the loop work on the
rows that are left, lets all employees dial in, and enables one account in the end. An old
`Org.csv` ends the script before. Over any starts no account is lost, and what else happens to one
has a record that names it.
-/

namespace OpsScripts.AddUser

/-- What a start finds, and what comes of the cmdlets of each row; `written` is the
`LastWriteTime` of `Org.csv`, in seconds. -/
structure Start where
  org : List Text
  written : Nat
  time : Nat
  outcome : Nat → Outcome
  draw : Nat → Draw

/-- The store of snapshots and the directory. -/
structure Domain where
  log : List Snapshot
  directory : Directory

/-- `$fileData -gt (get-date).AddHours(-20)`. -/
def Start.fresh (start : Start) : Bool := start.time < start.written + 20 * 60 * 60

/-- The account of the last line. -/
def pu04984 : Text := "pu04984"

section Script

variable [Culture] (E : Engine) (S : Service)

/-- `$ADUsers`. -/
def Start.adUsers (log : List Snapshot) (start : Start) : List Record :=
  AddUser.adUsers (delta E start.org (newest log) (trimFile start.org))

/-- The rows of the loop. -/
def Start.rows (log : List Snapshot) (start : Start) : List Row :=
  (start.adUsers E log).mapIdx fun k r => ⟨r, start.outcome k, start.draw k⟩

/-- The container is `OU=Employees` or lies below it. -/
def belowBase (ou : Text) : Bool :=
  eqIgnoreCase ou base || (toLower (',' :: base)).isSuffixOf (toLower ou)

/-- `Get-ADUser -SearchBase … | set-aduser -replace @{msnpallowdialin=$true}`. -/
def allowDialin (d : Directory) : Directory :=
  { d with users := d.users.map fun user =>
      if user.enabled && belowBase user.ou then { user with msnpallowdialin := some true }
      else user }

/-- `set-ADUser … -Enabled $true`. -/
def enableADUser (d : Directory) (identity : Text) : Directory :=
  d.modify identity fun user => { user with enabled := true }

/-- One start of the script. -/
def adduser (D : Domain) (start : Start) : Domain :=
  if start.fresh then
    { log := D.log ++ [⟨start.time, trimFile start.org⟩]
      directory :=
        enableADUser (allowDialin (recordRows S .start D.directory (start.rows E D.log)).1)
          pu04984 }
  else D

/-- Starts one after another. -/
def addusers (D : Domain) (starts : List Start) : Domain := starts.foldl (adduser E S) D

end Script

/-! ## What happens to an account -/

/-- An account keeps its name, and but for its permission to dial in it changes only with a reason;
the permission is only given, to an account that was enabled or for which there is a reason. -/
structure Follows (Active Inactive : Text → Prop) (user user' : User) : Prop where
  samAccountName : user'.samAccountName = user.samAccountName
  changed : user' = { user with msnpallowdialin := user'.msnpallowdialin } ∨
    Active user.samAccountName ∨ Inactive user.samAccountName
  dialin : user'.msnpallowdialin = user.msnpallowdialin ∨
    user'.msnpallowdialin = some true ∧ (user.enabled = true ∨ Active user.samAccountName)
  enabled : user.enabled = false → user'.enabled = true → Active user.samAccountName
  disabled : user.enabled = true → user'.enabled = false → Inactive user.samAccountName

/-- The accounts behind some rows. -/
abbrev Traces (Active Inactive : Text → Prop) (New : User → Prop) (d d' : Directory) : Prop :=
  Evolves (Follows Active Inactive) New d.users d'.users

section Traces

variable {Active Inactive Active' Inactive' : Text → Prop} {New New' : User → Prop}
  {user user' user'' : User} {d d' d'' : Directory}

theorem Follows.refl (user : User) : Follows Active Inactive user user where
  samAccountName := rfl
  changed := Or.inl rfl
  dialin := Or.inl rfl
  enabled h h' := absurd (h.symm.trans h') Bool.false_ne_true
  disabled h h' := absurd (h'.symm.trans h) Bool.false_ne_true

theorem Follows.trans (h : Follows Active Inactive user user')
    (h' : Follows Active Inactive user' user'') : Follows Active Inactive user user'' := by
  have hname := h.samAccountName
  have hchanged := h'.changed
  have hdialin := h'.dialin
  have henabled := h'.enabled
  have hdisabled := h'.disabled
  rw [hname] at hchanged hdialin henabled hdisabled
  constructor
  · exact h'.samAccountName.trans hname
  · rcases h.changed with heq | hreason
    · rcases hchanged with heq' | hreason
      · rw [heq] at heq'
        exact Or.inl heq'
      · exact Or.inr hreason
    · exact Or.inr hreason
  · rcases hdialin with hsame | ⟨hgiven, hreason⟩
    · rw [hsame]
      exact h.dialin
    · refine Or.inr ⟨hgiven, ?_⟩
      rcases hreason with hon | hactive
      · cases hbefore : user.enabled with
        | true => exact Or.inl rfl
        | false => exact Or.inr (h.enabled hbefore hon)
      · exact Or.inr hactive
  · intro hoff hon
    cases hbetween : user'.enabled with
    | false => exact henabled hbetween hon
    | true => exact h.enabled hoff hbetween
  · intro hon hoff
    cases hbetween : user'.enabled with
    | false => exact h.disabled hon hbetween
    | true => exact hdisabled hbetween hoff

theorem Follows.mono (h : Follows Active Inactive user user')
    (hactive : ∀ a, Active a → Active' a) (hinactive : ∀ a, Inactive a → Inactive' a) :
    Follows Active' Inactive' user user' where
  samAccountName := h.samAccountName
  changed := h.changed.imp_right (Or.imp (hactive _) (hinactive _))
  dialin := h.dialin.imp_right (And.imp_right (Or.imp_right (hactive _)))
  enabled hoff hon := hactive _ (h.enabled hoff hon)
  disabled hon hoff := hinactive _ (h.disabled hon hoff)

/-- An account that is on behind a change was on, or there is a reason. -/
theorem Follows.of_enabled (hname : user'.samAccountName = user.samAccountName)
    (hdialin : user'.msnpallowdialin = user.msnpallowdialin) (hon : user'.enabled = true)
    (hactive : Active user.samAccountName) : Follows Active Inactive user user' where
  samAccountName := hname
  changed := Or.inr (Or.inl hactive)
  dialin := Or.inl hdialin
  enabled _ _ := hactive
  disabled _ hoff := absurd (hoff.symm.trans hon) Bool.false_ne_true

theorem Follows.of_disabled (hname : user'.samAccountName = user.samAccountName)
    (hdialin : user'.msnpallowdialin = user.msnpallowdialin) (hoff : user'.enabled = false)
    (hinactive : Inactive user.samAccountName) : Follows Active Inactive user user' where
  samAccountName := hname
  changed := Or.inr (Or.inr hinactive)
  dialin := Or.inl hdialin
  enabled _ hon := absurd (hoff.symm.trans hon) Bool.false_ne_true
  disabled _ _ := hinactive

theorem Traces.refl : Traces Active Inactive New d d := Evolves.refl fun user _ => Follows.refl user

theorem Traces.trans (h : Traces Active Inactive New d d') (h' : Traces Active Inactive New d' d'')
    (hnew : ∀ user user', New user → user'.samAccountName = user.samAccountName → New user') :
    Traces Active Inactive New d d'' :=
  Evolves.trans h h' (fun _ _ _ h h' => h.trans h') fun _ _ hn h => hnew _ _ hn h.samAccountName

theorem Traces.mono (h : Traces Active Inactive New d d') (hactive : ∀ a, Active a → Active' a)
    (hinactive : ∀ a, Inactive a → Inactive' a) (hnew : ∀ user, New user → New' user) :
    Traces Active' Inactive' New' d d' :=
  Evolves.mono h (fun _ _ hf => hf.mono hactive hinactive) hnew

/-- A change of the accounts of one name. -/
theorem traces_modify [Culture] {identity : Text} {f : User → User}
    (hf : ∀ user, eqIgnoreCase user.samAccountName identity = true →
      Follows Active Inactive user (f user)) :
    Traces Active Inactive New d (d.modify identity f) := by
  apply Evolves.map
  intro user _
  split_ifs with hmatch
  · exact hf user hmatch
  · exact Follows.refl user

/-- The permission to dial in is given to enabled accounts. -/
theorem traces_allowDialin [Culture] : Traces Active Inactive New d (allowDialin d) := by
  apply Evolves.map
  intro user _
  split_ifs with hallowed
  · rw [Bool.and_eq_true] at hallowed
    exact {
      samAccountName := rfl
      changed := Or.inl rfl
      dialin := Or.inr ⟨rfl, Or.inl hallowed.1⟩
      enabled := fun hoff hon => absurd (hoff.symm.trans hon) Bool.false_ne_true
      disabled := fun hon hoff => absurd (hoff.symm.trans hon) Bool.false_ne_true }
  · exact Follows.refl user

end Traces

section Rows

variable [Culture] {S : Service}

/-- The row of an active employee names the account. -/
def ActiveRow (r : Record) (account : Text) : Prop :=
  isInactive r = false ∧ usable (username r) = true ∧ eqIgnoreCase account (username r) = true

/-- The row of a dismissed employee names the account. -/
def InactiveRow (r : Record) (account : Text) : Prop :=
  isInactive r = true ∧ usable (username r) = true ∧ eqIgnoreCase account (username r) = true

/-- The account has the name of the row of an active employee. -/
def CreatingRow (r : Record) (user : User) : Prop :=
  isInactive r = false ∧ usable (username r) = true ∧ user.samAccountName = username r

/-- A row with an `IPN` has a user name of its own. -/
theorem username_assign (v : Variables) {r : Record} (h : (r .ipn).isSome) :
    (v.assign r).username = some (username r) := by
  obtain ⟨ipn, hipn⟩ := Option.isSome_iff_exists.mp h
  simp only [Variables.assign, username, hipn, Option.map_some, Option.some_or, Option.getD_some]

/-- The branch that disables an account changes nothing else. -/
theorem exists_disableUser_eq (S : Service) (d : Directory) (username : Text) :
    ∃ ou : User → Text, disableUser S d username =
      d.modify username fun user => { user with ou := ou user, enabled := false } := by
  unfold disableUser
  cases hmove : moveADObject S d username dismissedOU with
  | none => exact ⟨User.ou, rfl⟩
  | some d' =>
    rw [moveADObject] at hmove
    obtain ⟨user, -, hmove⟩ := Option.bind_eq_some_iff.mp hmove
    obtain ⟨ou, -, hmove⟩ := Option.bind_eq_some_iff.mp hmove
    split_ifs at hmove
    obtain rfl := Option.some.inj hmove
    refine ⟨fun _ => ou, ?_⟩
    rw [Option.getD_some, modify_modify]
    · rfl
    · exact fun _ => rfl

/-- What one row does to the accounts. -/
theorem traces_recordRow (v : Variables) (d : Directory) (row : Row)
    (hipn : (row.record .ipn).isSome) :
    Traces (ActiveRow row.record) (InactiveRow row.record) (CreatingRow row.record) d
      (recordRow S v d row).2.1 := by
  have hname := username_assign v hipn
  simp only [recordRow, hname]
  split_ifs with husable hinactive hfound
  · exact Traces.refl
  · rw [Bool.not_eq_true', Bool.not_eq_false] at husable
    obtain ⟨ou, heq⟩ := exists_disableUser_eq S d (username row.record)
    rw [heq]
    apply traces_modify
    intro user hmatch
    exact Follows.of_disabled rfl rfl rfl ⟨hinactive, husable, hmatch⟩
  · rw [Bool.not_eq_true', Bool.not_eq_false] at husable
    rw [Bool.not_eq_true] at hinactive
    obtain ⟨user, hfound⟩ := Option.isSome_iff_exists.mp hfound
    rw [changeUser_eq S hfound]
    cases newName d (username row.record) user ((v.assign row.record).sname row.record) with
    | none => exact Traces.refl
    | some name =>
      have hmodified : Traces (ActiveRow row.record) (InactiveRow row.record)
          (CreatingRow row.record) d (d.modify (username row.record)
            (changeOf S (v.assign row.record) d (username row.record) row.record user name)) := by
        apply traces_modify
        intro user hmatch
        exact Follows.of_enabled rfl rfl rfl ⟨hinactive, husable, hmatch⟩
      exact hmodified
  · rw [Bool.not_eq_true', Bool.not_eq_false] at husable
    rw [Bool.not_eq_true] at hinactive
    obtain ⟨sname, -, hbranch⟩ := exists_createBranch_eq S row.outcome row.draw
      (v.assign row.record) d (username row.record) row.record
    rw [hbranch]
    refine Evolves.append (fun user _ => Follows.refl user) fun user huser => ?_
    obtain ⟨account, haccount, rfl⟩ := Option.map_eq_some_iff.mp (Option.mem_toList.mp huser)
    exact ⟨hinactive, husable, (newADUser_password S row.outcome _ haccount).1⟩

/-- What the rows of the loop do to the accounts. -/
theorem traces_recordRows (v : Variables) (d : Directory) {rows : List Row}
    (hipn : ∀ row ∈ rows, (row.record .ipn).isSome) :
    Traces (fun a => ∃ row ∈ rows, ActiveRow row.record a)
      (fun a => ∃ row ∈ rows, InactiveRow row.record a)
      (fun user => ∃ row ∈ rows, CreatingRow row.record user) d (recordRows S v d rows).1 := by
  induction rows generalizing v d with
  | nil => exact Traces.refl
  | cons row rows ih =>
    rw [List.forall_mem_cons] at hipn
    have hfirst := traces_recordRow (S := S) v d row hipn.1
    have hrest := ih (recordRow S v d row).1 (recordRow S v d row).2.1 hipn.2
    apply Traces.trans
    · apply hfirst.mono
      · exact fun _ h => ⟨row, List.mem_cons_self, h⟩
      · exact fun _ h => ⟨row, List.mem_cons_self, h⟩
      · exact fun _ h => ⟨row, List.mem_cons_self, h⟩
    · apply hrest.mono
      · exact fun _ ⟨row', hmem, h⟩ => ⟨row', List.mem_cons_of_mem row hmem, h⟩
      · exact fun _ ⟨row', hmem, h⟩ => ⟨row', List.mem_cons_of_mem row hmem, h⟩
      · exact fun _ ⟨row', hmem, h⟩ => ⟨row', List.mem_cons_of_mem row hmem, h⟩
    · rintro user user' ⟨row', hmem, hactive, husable, hname'⟩ hname
      exact ⟨row', hmem, hactive, husable, hname.trans hname'⟩

end Rows

/-! ## Starts -/

section Starts

variable [Culture] {E : Engine} {S : Service}

/-- The records that may become rows; the header line is one if the store has no file with it. -/
def Start.records (start : Start) : List Record := headerRecord :: importRecords start.org

theorem exists_of_mem_adUsers {log : List Snapshot} {start : Start} {r : Record}
    (h : r ∈ start.adUsers E log) : ∃ r' ∈ start.records, r = filled r' := by
  obtain ⟨r', hdelta, rfl⟩ := mem_adUsers_delta.mp h
  obtain ⟨i, hline, -⟩ := mem_delta.mp hdelta
  rcases mem_exportCsv (List.mem_of_getElem? hline) with hheader | ⟨r'', hmem, heq⟩
  · exact ⟨headerRecord, List.mem_cons_self, filled_eq_of_recordLine hheader⟩
  · exact ⟨r'', List.mem_cons_of_mem _ hmem, filled_eq_of_recordLine heq⟩

/-- Every row has an `IPN` and comes from a record. -/
theorem exists_of_mem_rows {log : List Snapshot} {start : Start} {row : Row}
    (h : row ∈ start.rows E log) : ∃ r ∈ start.records, row.record = filled r := by
  obtain ⟨k, hk, rfl⟩ := List.mem_mapIdx.mp h
  exact exists_of_mem_adUsers (List.getElem_mem hk)

/-- A start with a new `Org.csv` has a record of an active employee that names the account. -/
def ActiveIn (starts : List Start) (account : Text) : Prop :=
  ∃ start ∈ starts, start.fresh = true ∧ ∃ r ∈ start.records, ActiveRow r account

/-- A start with a new `Org.csv` has a record of a dismissed employee that names the account. -/
def InactiveIn (starts : List Start) (account : Text) : Prop :=
  ∃ start ∈ starts, start.fresh = true ∧ ∃ r ∈ start.records, InactiveRow r account

/-- The account has the name of an active employee of a new `Org.csv`. -/
def CreatedIn (starts : List Start) (user : User) : Prop :=
  ∃ start ∈ starts, start.fresh = true ∧ ∃ r ∈ start.records, CreatingRow r user

theorem traces_adduser (D : Domain) (start : Start) :
    Traces (fun a => ActiveIn [start] a ∨ eqIgnoreCase a pu04984 = true) (InactiveIn [start])
      (CreatedIn [start]) D.directory (adduser E S D start).directory := by
  unfold adduser
  split_ifs with hfresh
  · have hipn : ∀ row ∈ start.rows E D.log, (row.record .ipn).isSome := by
      intro row hrow
      obtain ⟨r, -, hr⟩ := exists_of_mem_rows hrow
      rw [hr]
      rfl
    have hmem : start ∈ [start] := List.mem_singleton_self start
    have hrows := traces_recordRows (S := S) .start D.directory hipn
    apply Traces.trans
    · apply hrows.mono
      · rintro a ⟨row, hrow, hactive⟩
        obtain ⟨r, hr, heq⟩ := exists_of_mem_rows hrow
        rw [heq] at hactive
        exact Or.inl ⟨start, hmem, hfresh, r, hr, hactive⟩
      · rintro a ⟨row, hrow, hinactive⟩
        obtain ⟨r, hr, heq⟩ := exists_of_mem_rows hrow
        rw [heq] at hinactive
        exact ⟨start, hmem, hfresh, r, hr, hinactive⟩
      · rintro user ⟨row, hrow, hcreating⟩
        obtain ⟨r, hr, heq⟩ := exists_of_mem_rows hrow
        rw [heq] at hcreating
        exact ⟨start, hmem, hfresh, r, hr, hcreating⟩
    · apply Traces.trans traces_allowDialin
      · apply traces_modify
        intro user hmatch
        exact Follows.of_enabled rfl rfl rfl (Or.inr hmatch)
      · rintro user user' ⟨start', hmem, hfresh, r, hr, hactive, husable, hname'⟩ hname
        exact ⟨start', hmem, hfresh, r, hr, hactive, husable, hname.trans hname'⟩
    · rintro user user' ⟨start', hmem, hfresh, r, hr, hactive, husable, hname'⟩ hname
      exact ⟨start', hmem, hfresh, r, hr, hactive, husable, hname.trans hname'⟩
  · exact Traces.refl

/-- Behind a start with a new `Org.csv` the enabled accounts of the employees may dial in, but for
the account that the last line enables. -/
theorem dialin_adduser (D : Domain) {start : Start} (hfresh : start.fresh = true) {user : User}
    (huser : user ∈ (adduser E S D start).directory.users) (henabled : user.enabled = true)
    (hbelow : belowBase user.ou = true)
    (hother : eqIgnoreCase user.samAccountName pu04984 = false) :
    user.msnpallowdialin = some true := by
  rw [adduser, if_pos hfresh] at huser
  obtain ⟨given, hgiven, rfl⟩ := List.mem_map.mp huser
  obtain ⟨before, -, rfl⟩ := List.mem_map.mp hgiven
  have hkept : ∀ u : User, eqIgnoreCase (if eqIgnoreCase u.samAccountName pu04984 then
      { u with enabled := true } else u).samAccountName pu04984 =
        eqIgnoreCase u.samAccountName pu04984 := by
    intro u
    split_ifs <;> rfl
  rw [hkept] at hother
  simp only [hother, Bool.false_eq_true, if_false] at henabled hbelow ⊢
  by_cases hallowed : (before.enabled && belowBase before.ou) = true
  · rw [if_pos hallowed]
  · rw [if_neg hallowed] at henabled hbelow
    exact absurd (Bool.and_eq_true_iff.mpr ⟨henabled, hbelow⟩) hallowed

end Starts

end OpsScripts.AddUser
