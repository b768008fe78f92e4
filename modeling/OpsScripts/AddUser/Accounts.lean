import OpsScripts.AddUser.Synchronisation

/-!
# Unique accounts, and the last row of an account

The loop looks for an account before it creates one, and the directory refuses a name that another
account of the container has. So both stay unique over any starts, and then every row works on one
account. Among the rows of one start the last one of an account decides.
-/

namespace OpsScripts.AddUser

section Sound

variable [Culture]

/-- The container and the name of an account, without case. -/
def User.place (user : User) : Text × Text := (toLower user.ou, toLower user.name)

/-- No two accounts have the same account name, and in one container no two have the same name. -/
structure Directory.Sound (d : Directory) : Prop where
  accounts : (d.users.map fun user => toLower user.samAccountName).Nodup
  places : (d.users.map User.place).Nodup

variable {d : Directory} {identity : Text}

theorem occupied_eq_false_iff {ou name : Text} : d.occupied identity ou name = false ↔
    ∀ other ∈ d.users, eqIgnoreCase other.samAccountName identity = false →
      other.place ≠ (toLower ou, toLower name) := by
  simp only [Directory.occupied, List.any_eq_false, Bool.and_eq_true, Bool.not_eq_true',
    eqIgnoreCase_iff, User.place, ne_eq, Prod.mk.injEq, not_and]
  exact forall₂_congr fun _ _ => and_imp

theorem getADUser_eq_some {user : User} (h : d.getADUser identity = some user) :
    user ∈ d.users ∧ eqIgnoreCase user.samAccountName identity = true := by
  have hmatch := List.find?_some h
  exact ⟨List.mem_of_find?_eq_some h, hmatch⟩

theorem getADUser_eq_none_iff : d.getADUser identity = none ↔
    ∀ user ∈ d.users, eqIgnoreCase user.samAccountName identity = false := by
  rw [Directory.getADUser, List.find?_eq_none]
  simp only [Bool.not_eq_true]

/-- An account name denotes one account. -/
theorem Directory.Sound.eq_of_match (h : d.Sound) {user other : User} (huser : user ∈ d.users)
    (hother : other ∈ d.users) (hmatch : eqIgnoreCase user.samAccountName identity = true)
    (hmatch' : eqIgnoreCase other.samAccountName identity = true) : user = other := by
  rw [eqIgnoreCase_iff] at hmatch hmatch'
  exact List.inj_on_of_nodup_map h.accounts huser hother (hmatch.trans hmatch'.symm)

/-- The own place of an account is free for it. -/
theorem Directory.Sound.occupied_self (h : d.Sound) {user : User} (huser : user ∈ d.users)
    (hmatch : eqIgnoreCase user.samAccountName identity = true) :
    d.occupied identity user.ou user.name = false := by
  rw [occupied_eq_false_iff]
  intro other hother hne hplace
  rw [List.inj_on_of_nodup_map h.places hother huser hplace, hmatch] at hne
  cases hne

/-- A change that gives a free place. -/
theorem Directory.Sound.modify (h : d.Sound) {f : User → User}
    (hname : ∀ user, (f user).samAccountName = user.samAccountName)
    (hfree : ∀ user ∈ d.users, eqIgnoreCase user.samAccountName identity = true →
      d.occupied identity (f user).ou (f user).name = false) : (d.modify identity f).Sound := by
  have husers : (d.modify identity f).users = d.users.map fun user =>
      if toLower user.samAccountName = toLower identity then f user else user := by
    simp only [Directory.modify, eqIgnoreCase_iff]
  constructor
  · have hsame : (d.modify identity f).users.map (fun user => toLower user.samAccountName) =
        d.users.map fun user => toLower user.samAccountName := by
      rw [husers, List.map_map]
      apply List.map_congr_left
      intro user _
      rw [Function.comp_apply]
      split_ifs
      · rw [hname]
      · rfl
    rw [hsame]
    exact h.accounts
  · rw [husers]
    apply nodup_map_update h.accounts h.places
    intro user huser other hother hmatch hne hplace
    rw [← eqIgnoreCase_iff] at hmatch
    rw [ne_eq, ← eqIgnoreCase_iff, Bool.not_eq_true] at hne
    exact occupied_eq_false_iff.mp (hfree user huser hmatch) other hother hne hplace.symm

/-- A change that leaves the names and the containers. -/
theorem Directory.Sound.map_same (h : d.Sound) {f : User → User}
    (hname : ∀ user, (f user).samAccountName = user.samAccountName)
    (hplace : ∀ user, (f user).ou = user.ou ∧ (f user).name = user.name) :
    Directory.Sound { d with users := d.users.map f } := by
  constructor
  · rw [List.map_map]
    simp only [Function.comp_def, hname]
    exact h.accounts
  · rw [List.map_map]
    simp only [Function.comp_def, User.place, hplace]
    exact h.places

theorem Directory.Sound.modify_same (h : d.Sound) {f : User → User}
    (hname : ∀ user, (f user).samAccountName = user.samAccountName)
    (hplace : ∀ user, (f user).ou = user.ou ∧ (f user).name = user.name) :
    (d.modify identity f).Sound := by
  refine h.map_same (fun user => ?_) fun user => ?_
  · split_ifs
    · exact hname user
    · rfl
  · split_ifs
    · exact hplace user
    · exact ⟨rfl, rfl⟩

theorem Directory.Sound.moveADObject {S : Service} (h : d.Sound) (targetPath : Text) :
    ((moveADObject S d identity targetPath).getD d).Sound := by
  cases hmove : AddUser.moveADObject S d identity targetPath with
  | none => exact h
  | some d' =>
    rw [AddUser.moveADObject] at hmove
    obtain ⟨user, hfound, hmove⟩ := Option.bind_eq_some_iff.mp hmove
    obtain ⟨ou, -, hmove⟩ := Option.bind_eq_some_iff.mp hmove
    split_ifs at hmove with hfree
    obtain rfl := Option.some.inj hmove
    obtain ⟨hmem, hself⟩ := getADUser_eq_some hfound
    refine h.modify (fun _ => rfl) fun other hother hmatch => ?_
    rw [h.eq_of_match hother hmem hmatch hself]
    exact Bool.not_eq_true _ ▸ hfree

theorem Directory.Sound.disableUser {S : Service} (h : d.Sound) :
    (disableUser S d identity).Sound := by
  have hmoved : ((AddUser.moveADObject S d identity dismissedOU).getD d).Sound :=
    h.moveADObject dismissedOU
  exact hmoved.modify_same (fun _ => rfl) fun _ => ⟨rfl, rfl⟩

theorem Directory.Sound.enableADUser (h : d.Sound) : (enableADUser d identity).Sound :=
  h.modify_same (fun _ => rfl) fun _ => ⟨rfl, rfl⟩

theorem Directory.Sound.allowDialin (h : d.Sound) : (allowDialin d).Sound := by
  refine h.map_same (fun user => ?_) fun user => ?_
  · split_ifs <;> rfl
  · split_ifs <;> exact ⟨rfl, rfl⟩

/-- The new name and the new container of a change are free together. -/
theorem Directory.Sound.changeUser {S : Service} (h : d.Sound) {user : User}
    (hfound : d.getADUser identity = some user) (v : Variables) (r : Record) :
    (changeUser S v d identity r).Sound := by
  rw [changeUser_eq S hfound]
  cases hnew : newName d identity user (v.sname r) with
  | none => exact h
  | some name =>
    obtain ⟨hmem, hself⟩ := getADUser_eq_some hfound
    have hnamed : d.occupied identity user.ou (name.getD user.name) = false := by
      cases name with
      | none => exact h.occupied_self hmem hself
      | some chName =>
        rw [newName] at hnew
        split at hnew
        · split_ifs at hnew with hown hoccupied
          · cases Option.some.inj hnew
          · obtain rfl := Option.some.inj (Option.some.inj hnew)
            exact Bool.not_eq_true _ ▸ hoccupied
        · cases hnew
    have hmodified : (d.modify identity (changeOf S v d identity r user name)).Sound := by
      refine h.modify (fun _ => rfl) fun other hother hmatch => ?_
      rw [h.eq_of_match hother hmem hmatch hself]
      change d.occupied identity ((newContainer S d identity (name.getD user.name)
        (targetOU r)).getD user.ou) (name.getD user.name) = false
      cases hcontainer : newContainer S d identity (name.getD user.name) (targetOU r) with
      | none => exact hnamed
      | some ou =>
        rw [newContainer] at hcontainer
        split_ifs at hcontainer
        have hfree := (Option.filter_eq_some_iff.mp hcontainer).2
        rwa [Bool.not_eq_true'] at hfree
    exact ⟨hmodified.accounts, hmodified.places⟩

/-- The account that is created has a name and a place of its own. -/
theorem Directory.Sound.createBranch {S : Service} (h : d.Sound)
    (hmissing : d.getADUser identity = none) (o : Outcome) (draw : Draw) (v : Variables)
    (r : Record) : (createBranch S o draw v d identity r).1.Sound := by
  obtain ⟨sname, -, hbranch⟩ := exists_createBranch_eq S o draw v d identity r
  rw [hbranch]
  cases haccount : o.newADUser S { d with ous := o.create d.ous (targetOU r) } identity sname
      (targetOU r) (v.attributes r) (PassGen draw) with
  | none =>
    rw [Option.map_none, Option.toList_none, List.append_nil]
    exact ⟨h.accounts, h.places⟩
  | some account =>
    have hmissing' := getADUser_eq_none_iff.mp hmissing
    have hplace : account.user.samAccountName = identity ∧
        d.occupied identity account.user.ou account.user.name = false := by
      rw [Outcome.newADUser] at haccount
      obtain ⟨ou, -, haccount⟩ := Option.bind_eq_some_iff.mp haccount
      split_ifs at haccount with hfree
      rw [Bool.not_eq_true] at hfree
      dsimp only at haccount
      split at haccount
      · cases haccount
      · obtain rfl := Option.some.inj haccount
        exact ⟨rfl, hfree⟩
      · obtain rfl := Option.some.inj haccount
        exact ⟨rfl, hfree⟩
    rw [Option.map_some, Option.toList_some]
    constructor
    · apply nodup_map_concat h.accounts
      intro other hother heq
      rw [hplace.1, ← eqIgnoreCase_iff, hmissing' other hother] at heq
      cases heq
    · apply nodup_map_concat h.places
      intro other hother heq
      exact occupied_eq_false_iff.mp hplace.2 other hother (hmissing' other hother) heq

theorem Directory.Sound.recordRow {S : Service} (h : d.Sound) (v : Variables) (row : Row) :
    (recordRow S v d row).2.1.Sound := by
  cases hname : (v.assign row.record).username with
  | none =>
    simp only [AddUser.recordRow, hname]
    exact h
  | some username =>
    simp only [AddUser.recordRow, hname]
    split_ifs with husable hinactive hfound
    · exact h
    · exact h.disableUser
    · obtain ⟨user, hfound⟩ := Option.isSome_iff_exists.mp hfound
      exact h.changeUser hfound _ _
    · exact h.createBranch (Option.not_isSome_iff_eq_none.mp hfound) _ _ _ _

theorem Directory.Sound.recordRows {S : Service} (h : d.Sound) (v : Variables) (rows : List Row) :
    (recordRows S v d rows).1.Sound := by
  induction rows generalizing v d with
  | nil => exact h
  | cons row rows ih => exact ih (h.recordRow v row) _

/-- Account names stay unique, and names stay unique in their containers, over any starts. -/
theorem sound_addusers {E : Engine} {S : Service} {D : Domain} (h : D.directory.Sound)
    (starts : List Start) : (addusers E S D starts).directory.Sound := by
  induction starts generalizing D with
  | nil => exact h
  | cons start starts ih =>
    apply ih
    unfold adduser
    split_ifs
    · exact (h.recordRows .start _).allowDialin.enableADUser
    · exact h

end Sound

/-! ## The last row -/

section LastRow

variable [Culture] {S : Service} {d : Directory} {identity account : Text}

/-- What is found behind a change of all accounts. -/
theorem getADUser_map {f : User → User}
    (hname : ∀ user, (f user).samAccountName = user.samAccountName) (account : Text) :
    Directory.getADUser { d with users := d.users.map f } account =
      (d.getADUser account).map f := by
  rw [Directory.getADUser, List.find?_map, Directory.getADUser]
  simp only [Function.comp_def, hname]

/-- What is found behind a change of the accounts of a name. -/
theorem getADUser_modify_map {f : User → User}
    (hname : ∀ user, (f user).samAccountName = user.samAccountName) (account : Text) :
    (d.modify identity f).getADUser account = (d.getADUser account).map fun user =>
      if eqIgnoreCase user.samAccountName identity then f user else user := by
  refine getADUser_map (fun user => ?_) account
  split_ifs
  · exact hname user
  · rfl

/-- Accounts of other names stay. -/
theorem getADUser_modify_of_ne {f : User → User}
    (hname : ∀ user, (f user).samAccountName = user.samAccountName)
    (hne : eqIgnoreCase identity account = false) :
    (d.modify identity f).getADUser account = d.getADUser account := by
  rw [getADUser_modify_map hname]
  cases hfound : d.getADUser account with
  | none => rfl
  | some user =>
    have hmatch := (getADUser_eq_some hfound).2
    rw [eqIgnoreCase_iff] at hmatch
    have hother : ¬eqIgnoreCase user.samAccountName identity = true := by
      intro heq
      rw [eqIgnoreCase_iff] at heq
      rw [← Bool.not_eq_true, eqIgnoreCase_iff] at hne
      exact hne (heq.symm.trans hmatch)
    rw [Option.map_some, if_neg hother]

/-- A row leaves the accounts of other names. -/
theorem getADUser_recordRow_of_ne (v : Variables) (d : Directory) {row : Row}
    (hipn : (row.record .ipn).isSome)
    (hne : eqIgnoreCase (username row.record) account = false) :
    (recordRow S v d row).2.1.getADUser account = d.getADUser account := by
  simp only [recordRow, username_assign v hipn]
  split_ifs with husable hinactive hfound
  · rfl
  · obtain ⟨ou, heq⟩ := exists_disableUser_eq S d (username row.record)
    rw [heq]
    exact getADUser_modify_of_ne (fun _ => rfl) hne
  · obtain ⟨user, hfound⟩ := Option.isSome_iff_exists.mp hfound
    rw [changeUser_eq S hfound]
    cases newName d (username row.record) user ((v.assign row.record).sname row.record) with
    | none => rfl
    | some name =>
      have hmodified : (d.modify (username row.record) (changeOf S (v.assign row.record) d
          (username row.record) row.record user name)).getADUser account = d.getADUser account :=
        getADUser_modify_of_ne (fun _ => rfl) hne
      exact hmodified
  · obtain ⟨sname, -, hbranch⟩ := exists_createBranch_eq S row.outcome row.draw
      (v.assign row.record) d (username row.record) row.record
    rw [hbranch]
    cases haccount : row.outcome.newADUser S
        { d with ous := row.outcome.create d.ous (targetOU row.record) } (username row.record)
        sname (targetOU row.record) ((v.assign row.record).attributes row.record)
        (PassGen row.draw) with
    | none =>
      rw [Option.map_none, Option.toList_none, List.append_nil]
      rfl
    | some account' =>
      have hname := (newADUser_password S row.outcome _ haccount).1
      have hother : [account'.user].find? (fun user =>
          eqIgnoreCase user.samAccountName account) = none := by
        rw [List.find?_cons_of_neg, List.find?_nil]
        rw [hname, hne]
        exact Bool.false_ne_true
      rw [Option.map_some, Option.toList_some, Directory.getADUser, List.find?_append, hother,
        Option.or_none]
      rfl

theorem getADUser_recordRows_of_ne (v : Variables) (d : Directory) {rows : List Row}
    (hipn : ∀ row ∈ rows, (row.record .ipn).isSome)
    (hne : ∀ row ∈ rows, eqIgnoreCase (username row.record) account = false) :
    (recordRows S v d rows).1.getADUser account = d.getADUser account := by
  induction rows generalizing v d with
  | nil => rfl
  | cons row rows ih =>
    rw [List.forall_mem_cons] at hipn hne
    exact (ih _ _ hipn.2 hne.2).trans (getADUser_recordRow_of_ne v d hipn.1 hne.1)

variable (S) in
/-- The variables and the directory behind some rows. -/
def behindRows : Variables → Directory → List Row → Variables × Directory
  | v, d, [] => (v, d)
  | v, d, row :: rows => behindRows (recordRow S v d row).1 (recordRow S v d row).2.1 rows

theorem recordRows_append (v : Variables) (d : Directory) (before rows : List Row) :
    (recordRows S v d (before ++ rows)).1 =
      (recordRows S (behindRows S v d before).1 (behindRows S v d before).2 rows).1 := by
  induction before generalizing v d with
  | nil => rfl
  | cons row before ih => exact ih (recordRow S v d row).1 (recordRow S v d row).2.1

/-- The account of a row behind it. -/
theorem exists_getADUser_recordRow (v : Variables) {row : Row} {user : User}
    (hipn : (row.record .ipn).isSome) (husable : usable (username row.record) = true)
    (hfound : d.getADUser (username row.record) = some user) :
    ∃ user', (recordRow S v d row).2.1.getADUser (username row.record) = some user' ∧
      if isInactive row.record then user'.enabled = false
      else if (newName d (username row.record) user
          ((v.assign row.record).sname row.record)).isSome then
        user'.enabled = true ∧ user'.attributes = (v.assign row.record).attributes row.record
      else user' = user := by
  simp only [recordRow, username_assign v hipn, husable, hfound, Option.isSome_some, if_true,
    Bool.not_true, Bool.false_eq_true, if_false]
  split_ifs with hinactive hnew
  · obtain ⟨ou, heq⟩ := exists_disableUser_eq S d (username row.record)
    have hdisabled : (d.modify (username row.record) fun user =>
        { user with ou := ou user, enabled := false }).getADUser (username row.record) = _ :=
      getADUser_modify (f := fun user : User => { user with ou := ou user, enabled := false })
        fun _ => rfl
    rw [hfound] at hdisabled
    rw [heq]
    exact ⟨_, hdisabled, rfl⟩
  · obtain ⟨name, hname⟩ := Option.isSome_iff_exists.mp hnew
    rw [changeUser_eq S hfound, hname]
    exact ⟨_, getADUser_changed S _ _ name hfound, rfl, rfl⟩
  · rw [changeUser_eq S hfound, Option.not_isSome_iff_eq_none.mp hnew]
    exact ⟨user, hfound, rfl⟩

/-- What the lines behind the loop do to an account. -/
theorem exists_getADUser_closing {user : User} (hfound : d.getADUser account = some user) :
    ∃ user', (enableADUser (allowDialin d) pu04984).getADUser account = some user' ∧
      user'.enabled = (user.enabled || eqIgnoreCase user.samAccountName pu04984) ∧
      user'.name = user.name ∧ user'.ou = user.ou ∧ user'.attributes = user.attributes := by
  have hallowed : (allowDialin d).getADUser account = _ := getADUser_map (d := d) (f := fun user =>
    if user.enabled && belowBase user.ou then { user with msnpallowdialin := some true }
    else user) (fun user => by split_ifs <;> rfl) account
  rw [hfound, Option.map_some] at hallowed
  have hclosing : (enableADUser (allowDialin d) pu04984).getADUser account = _ :=
    getADUser_modify_map (f := fun user : User => { user with enabled := true }) (fun _ => rfl) _
  rw [hallowed, Option.map_some] at hclosing
  refine ⟨_, hclosing, ?_⟩
  by_cases hdialin : (user.enabled && belowBase user.ou) = true
  · simp only [if_pos hdialin]
    cases eqIgnoreCase user.samAccountName pu04984 <;> simp
  · simp only [if_neg hdialin]
    cases eqIgnoreCase user.samAccountName pu04984 <;> simp

/-- The rows of a start have all cells, so a surname is enough. -/
theorem readable_of_mem_rows {E : Engine} {log : List Snapshot} {start : Start} {row : Row}
    (hrow : row ∈ start.rows E log) (hsurname : row.record .surname ≠ some []) :
    Readable row.record := by
  obtain ⟨r, -, hr⟩ := exists_of_mem_rows hrow
  rw [hr] at hsurname ⊢
  refine ⟨?_, rfl, rfl⟩
  obtain ⟨c, cs, hcons⟩ := List.exists_cons_of_ne_nil fun h => hsurname (congrArg some h)
  exact ⟨c, cs, congrArg some hcons⟩

end LastRow

section Example

local instance asciiAccounts : Culture := Culture.ascii

/-- A start that finds the file of a transfer. -/
def transferredStart : Start where
  org := transferred
  written := 0
  time := 0
  outcome _ := .usual unitService
  draw _ := firstDraw

/-- A directory of two accounts. -/
def colleagues : Directory := twoUsers "Ivanov Petr".toList "Petrov Petrov".toList

theorem sound_addusers_transferred :
    (addusers Engine.core unitService ⟨[], colleagues⟩ [transferredStart]).directory.Sound :=
  sound_addusers ⟨by decide, by decide⟩ _

/-- A start that finds the dismissal of the first post only. -/
def dismissalStart : Start := { transferredStart with org := transferred.take 2 }

/-- The rows of the start. -/
def dismissalRows : List Row := dismissalStart.rows Engine.core emptyStore

theorem dismissalRows_ne_nil : dismissalRows ≠ [] := by decide +kernel

end Example

end OpsScripts.AddUser
