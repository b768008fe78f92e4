import OpsScripts.AddUser.ChangeTwice
import OpsScripts.AddUser.SqlText

/-!
# The passwords that are published

The branch that creates an account writes the user name and the password to the log file
and to the database, whatever has become of the steps before. So a pair is published also
where the unit is missing, the name is taken or the service refuses the account or its
password.
-/

namespace OpsScripts.AddUser

/-- The answer of the service to a new account in a container where its name is free. -/
inductive Admission where
  | refused
  /-- The account is there, but disabled and without the password. -/
  | withoutPassword
  | admitted
  deriving DecidableEq

/-- What comes of the cmdlets: the units that `Create` leaves, and the answers of the
service to `New-ADUser`. -/
structure Outcome where
  create : List OU → Text → List OU
  admission : User → Text → Admission

/-- An account that was created, with the password that was set. -/
structure Account where
  user : User
  password : Option Text
  deriving DecidableEq

/-- `"$date; $username; $DisplayName; $password"`. -/
structure LogEntry where
  username : Text
  displayName : Text
  password : Text
  deriving DecidableEq

/-- What a row does besides changing the directory: the account it creates, the entries of
the log file and the calls of `addToSql`. -/
structure Effect where
  account : Option Account
  log : List LogEntry
  addToSql : List (Text × Text)

/-- Nothing is created and nothing is published. -/
def Effect.nothing : Effect := ⟨none, [], []⟩

/-- The account was created with the password. -/
def Effect.Creates (e : Effect) (username password : Text) : Prop :=
  ∃ account ∈ e.account, account.user.samAccountName = username ∧ account.password = some password

/-- A pair is published exactly if it is the name and the password of a new account. -/
structure Effect.Recorded (e : Effect) : Prop where
  log : ∀ username password,
    (∃ entry ∈ e.log, entry.username = username ∧ entry.password = password) ↔
      e.Creates username password
  addToSql : ∀ username password, (username, password) ∈ e.addToSql ↔ e.Creates username password

/-- A row, what comes of its cmdlets and what is drawn for its password. -/
structure Row where
  record : Record
  outcome : Outcome
  draw : Draw

section Rows

variable [Culture] (S : Service)

/-- `Create` on the service, which refuses no account. -/
def Outcome.usual : Outcome where
  create ous OU := (AddUser.create S.toEscaping .adduser false ous OU).1
  admission _ _ := .admitted

/-- `New-ADUser`; no account is `none`. -/
def Outcome.newADUser (o : Outcome) (d : Directory) (samAccountName name path : Text)
    (attributes : Attributes) (password : Text) : Option Account := do
  let ou ← S.container d.ous path
  if d.occupied samAccountName ou name then none
  else
    let user : User := ⟨samAccountName, name, ou, true, attributes, none⟩
    match o.admission user password with
    | .refused => none
    | .withoutPassword => some ⟨{ user with enabled := false }, none⟩
    | .admitted => some ⟨user, some password⟩

/-- The branch that creates a user. -/
def createBranch (o : Outcome) (draw : Draw) (v : Variables) (d : Directory) (username : Text)
    (r : Record) : Directory × Effect :=
  match uniqueName false d (v.sname r) with
  | .returned sname =>
    let d := { d with ous := o.create d.ous (targetOU r) }
    let password := PassGen draw
    let account := o.newADUser S d username sname (targetOU r) (v.attributes r) password
    -- No step looks at what has become of the one before.
    ({ d with users := d.users ++ (account.map Account.user).toList },
      ⟨account, [⟨username, (v.attributes r).displayName, password⟩], [(username, password)]⟩)
  | _ => (d, .nothing)

/-- One iteration of the loop. -/
def recordRow (v : Variables) (d : Directory) (row : Row) : Variables × Directory × Effect :=
  let r := row.record
  let assigned := v.assign r
  match assigned.username with
  | none => (assigned, d, .nothing)
  | some username =>
    if !usable username then (assigned, d, .nothing)
    else if isInactive r then (assigned, disableUser S d username, .nothing)
    else if (d.getADUser username).isSome then
      (assigned.reset, changeUser S assigned d username r, .nothing)
    else (assigned.reset, createBranch S row.outcome row.draw assigned d username r)

/-- The loop: the directory it leaves and what its iterations do. -/
def recordRows : Variables → Directory → List Row → Directory × List Effect
  | _, d, [] => (d, [])
  | v, d, row :: rows =>
    let (v, d, e) := recordRow S v d row
    ((recordRows v d rows).1, e :: (recordRows v d rows).2)

/-- The unit is there behind `Create`, the name that was found is free in it, and the service
takes the account and its password. -/
def Admitted (o : Outcome) (draw : Draw) (v : Variables) (d : Directory) (username : Text)
    (r : Record) : Prop :=
  ∃ ou sname, S.container (o.create d.ous (targetOU r)) (targetOU r) = some ou ∧
    uniqueName false d (v.sname r) = .returned sname ∧ d.occupied username ou sname = false ∧
      o.admission ⟨username, sname, ou, true, v.attributes r, none⟩ (PassGen draw) = .admitted

end Rows

/-! ## The branch in one step -/

/-- Nothing is created. -/
theorem not_creates_nothing (username password : Text) :
    ¬Effect.nothing.Creates username password := by
  rintro ⟨_, haccount, -⟩
  cases haccount

/-- What is published is right exactly if the branch sets the password. -/
theorem recorded_iff_creates {e : Effect} {username : Text} (hlog : ∃ displayName password,
    e.log = [⟨username, displayName, password⟩] ∧ e.addToSql = [(username, password)] ∧
      ∀ account ∈ e.account, ∀ other, account.password = some other → other = password ∧
        account.user.samAccountName = username) :
    e.Recorded ↔ ∃ password, e.Creates username password := by
  obtain ⟨displayName, password, hlog, hsql, haccount⟩ := hlog
  have hcreates : ∀ name other, e.Creates name other → name = username ∧ other = password := by
    rintro name other ⟨account, hmem, hname, hpassword⟩
    obtain ⟨rfl, husername⟩ := haccount account hmem other hpassword
    exact ⟨hname.symm.trans husername, rfl⟩
  constructor
  · intro h
    exact ⟨password, (h.addToSql username password).mp (hsql ▸ List.mem_singleton_self _)⟩
  · rintro ⟨other, hother⟩
    obtain ⟨-, rfl⟩ := hcreates username other hother
    constructor
    · intro name other'
      rw [hlog]
      constructor
      · rintro ⟨entry, hentry, rfl, rfl⟩
        rwa [List.mem_singleton.mp hentry]
      · intro hc
        obtain ⟨rfl, rfl⟩ := hcreates name other' hc
        exact ⟨_, List.mem_singleton_self _, rfl, rfl⟩
    · intro name other'
      rw [hsql, List.mem_singleton, Prod.mk.injEq]
      constructor
      · rintro ⟨rfl, rfl⟩
        exact hother
      · exact hcreates name other'

section Branch

variable [Culture] (S : Service)

/-- Outside of a `try` a name is found always. -/
theorem exists_uniqueName (d : Directory) (sname : Text) :
    ∃ name, uniqueName false d sname = .returned name := by
  have hnoError : NoError false d.names sname := fun h => nomatch h
  obtain ⟨k, hreturned, -⟩ := exists_SName_eq_returned hnoError
  exact ⟨_, hreturned⟩

variable (o : Outcome) (draw : Draw) (v : Variables) (d : Directory) (username : Text) (r : Record)

/-- The branch always publishes the user name with the password. -/
theorem exists_createBranch_eq :
    ∃ sname, uniqueName false d (v.sname r) = .returned sname ∧
      let units := { d with ous := o.create d.ous (targetOU r) }
      let account := o.newADUser S units username sname (targetOU r) (v.attributes r) (PassGen draw)
      createBranch S o draw v d username r =
        ({ units with users := d.users ++ (account.map Account.user).toList },
          ⟨account, [⟨username, (v.attributes r).displayName, PassGen draw⟩],
            [(username, PassGen draw)]⟩) := by
  obtain ⟨sname, hname⟩ := exists_uniqueName d (v.sname r)
  refine ⟨sname, hname, ?_⟩
  rw [createBranch, hname]

/-- `New-ADUser` sets the password exactly where nothing stands against it. -/
theorem newADUser_eq_some_iff {samAccountName name path password : Text}
    {attributes : Attributes} :
    (∃ account, o.newADUser S d samAccountName name path attributes password = some account ∧
        account.user.samAccountName = samAccountName ∧ account.password = some password) ↔
      ∃ ou, S.container d.ous path = some ou ∧ d.occupied samAccountName ou name = false ∧
        o.admission ⟨samAccountName, name, ou, true, attributes, none⟩ password = .admitted := by
  rw [Outcome.newADUser]
  cases hcontainer : S.container d.ous path with
  | none => simp only [Option.bind_eq_bind, Option.bind_none, reduceCtorEq, false_and, exists_false]
  | some ou =>
    simp only [Option.bind_eq_bind, Option.bind_some, Option.some.injEq, exists_eq_left']
    by_cases hfree : d.occupied samAccountName ou name = true
    · simp only [hfree, if_true, reduceCtorEq, false_and, exists_false, Bool.true_eq_false]
    · rw [Bool.not_eq_true] at hfree
      cases hadmission : o.admission ⟨samAccountName, name, ou, true, attributes, none⟩ password <;>
        simp [hfree]

/-- An account has the name that was asked for and no other password. -/
theorem newADUser_password {samAccountName name path password : Text} {attributes : Attributes}
    {account : Account}
    (h : o.newADUser S d samAccountName name path attributes password = some account) :
    account.user.samAccountName = samAccountName ∧
      ∀ other, account.password = some other → other = password := by
  rw [Outcome.newADUser] at h
  obtain ⟨ou, -, h⟩ := Option.bind_eq_some_iff.mp h
  split_ifs at h
  dsimp only at h
  split at h
  · cases h
  · obtain rfl := Option.some.inj h
    exact ⟨rfl, fun _ hother => nomatch hother⟩
  · obtain rfl := Option.some.inj h
    exact ⟨rfl, fun _ hother => (Option.some.inj hother).symm⟩

/-- A user name is published with its password exactly if the account was created with them,
in every state and for every outcome of the cmdlets, if and only if the unit is there behind
`Create`, the name is free in it and the service takes the account and the password. -/
theorem recorded_createBranch_iff :
    (createBranch S o draw v d username r).2.Recorded ↔ Admitted S o draw v d username r := by
  obtain ⟨sname, hname, hbranch⟩ := exists_createBranch_eq S o draw v d username r
  have hadmitted : Admitted S o draw v d username r ↔
      ∃ account, o.newADUser S { d with ous := o.create d.ous (targetOU r) } username sname
        (targetOU r) (v.attributes r) (PassGen draw) = some account ∧
          account.user.samAccountName = username ∧ account.password = some (PassGen draw) := by
    rw [newADUser_eq_some_iff, Admitted, hname]
    simp only [Answer.returned.injEq]
    constructor
    · rintro ⟨ou, _, hcontainer, rfl, hfree, hadmission⟩
      exact ⟨ou, hcontainer, hfree, hadmission⟩
    · rintro ⟨ou, hcontainer, hfree, hadmission⟩
      exact ⟨ou, sname, hcontainer, rfl, hfree, hadmission⟩
  rw [hbranch, hadmitted, @recorded_iff_creates _ username]
  · constructor
    · rintro ⟨password, account, haccount, husername, hpassword⟩
      obtain ⟨-, hother⟩ := newADUser_password S o _ haccount
      rw [hother password hpassword] at hpassword
      exact ⟨account, haccount, husername, hpassword⟩
    · rintro ⟨account, haccount, hset⟩
      exact ⟨PassGen draw, account, haccount, hset⟩
  · refine ⟨_, _, rfl, rfl, fun account haccount other hpassword => ?_⟩
    obtain ⟨husername, hother⟩ := newADUser_password S o _ haccount
    exact ⟨hother other hpassword, husername⟩

end Branch

/-! ## Runs -/

section Runs

variable [Culture] (S : Service)

theorem newADUser_usual (d : Directory) (samAccountName name path : Text)
    (attributes : Attributes) (password : Text) :
    newADUser S d samAccountName name path attributes =
      ((Outcome.usual S).newADUser S d samAccountName name path attributes password).map
        fun account => { d with users := d.users ++ [account.user] } := by
  rw [newADUser, Outcome.newADUser]
  cases S.container d.ous path with
  | none => rfl
  | some ou =>
    simp only [Option.bind_eq_bind, Option.bind_some]
    split_ifs <;> rfl

/-- Where the service refuses nothing, the branch does to the directory what `createUser`
does. -/
theorem createBranch_usual (draw : Draw) (v : Variables) (d : Directory) (username : Text)
    (r : Record) :
    (createBranch S (.usual S) draw v d username r).1 = createUser S v d username r := by
  obtain ⟨sname, hname, hbranch⟩ := exists_createBranch_eq S (.usual S) draw v d username r
  have hcreate : (create S.toEscaping .adduser false d.ous (targetOU r)).1 =
      (Outcome.usual S).create d.ous (targetOU r) := rfl
  rw [hbranch, createUser, hname]
  dsimp only
  rw [hcreate, newADUser_usual S _ _ _ _ _ (PassGen draw)]
  cases (Outcome.usual S).newADUser S
      { d with ous := (Outcome.usual S).create d.ous (targetOU r) } username sname (targetOU r)
      (v.attributes r) (PassGen draw) with
  | none => simp only [Option.map_none, Option.toList_none, List.append_nil, Option.getD_none]
  | some account => rfl

/-- An iteration does to the variables and the directory what `synchroniseRow` does. -/
theorem recordRow_usual (draw : Draw) (v : Variables) (d : Directory) (r : Record) :
    ((recordRow S v d ⟨r, .usual S, draw⟩).1, (recordRow S v d ⟨r, .usual S, draw⟩).2.1) =
      synchroniseRow S v d r := by
  cases hname : (v.assign r).username with
  | none => simp only [recordRow, synchroniseRow, hname]
  | some username =>
    simp only [recordRow, synchroniseRow, hname, ← createBranch_usual S draw]
    cases usable username with
    | false => rfl
    | true =>
      cases isInactive r with
      | true => rfl
      | false => cases (d.getADUser username).isSome <;> rfl

/-- There is an account of the name. -/
def Directory.Has (d : Directory) (username : Text) : Prop :=
  ∃ user ∈ d.users, user.samAccountName = username

variable {S} {d d' : Directory} {username : Text}

/-- A change of users leaves their account names. -/
theorem Directory.Has.modify {identity : Text} {f : User → User}
    (hf : ∀ user, (f user).samAccountName = user.samAccountName) (h : d.Has username) :
    (d.modify identity f).Has username := by
  obtain ⟨user, hmem, hname⟩ := h
  refine ⟨_, List.mem_map_of_mem hmem, ?_⟩
  split_ifs
  · rw [hf, hname]
  · exact hname

theorem Directory.Has.moveADObject {identity path : Text} (h : d.Has username) :
    ((moveADObject S d identity path).getD d).Has username := by
  cases hmove : AddUser.moveADObject S d identity path with
  | none => exact h
  | some d' =>
    rw [AddUser.moveADObject] at hmove
    obtain ⟨user, -, hmove⟩ := Option.bind_eq_some_iff.mp hmove
    obtain ⟨ou, -, hmove⟩ := Option.bind_eq_some_iff.mp hmove
    split_ifs at hmove
    obtain rfl := Option.some.inj hmove
    exact h.modify fun _ => rfl

theorem Directory.Has.changeUser {v : Variables} {identity : Text} {r : Record}
    (hfound : (d.getADUser identity).isSome) (h : d.Has username) :
    (changeUser S v d identity r).Has username := by
  obtain ⟨user, hfound⟩ := Option.isSome_iff_exists.mp hfound
  rw [changeUser_eq S hfound]
  cases newName d identity user (v.sname r) with
  | none => exact h
  | some name =>
    have hchanged : (d.modify identity (changeOf S v d identity r user name)).Has username :=
      h.modify fun _ => rfl
    exact hchanged

theorem Directory.Has.disableUser {identity : Text} (h : d.Has username) :
    (disableUser S d identity).Has username :=
  h.moveADObject.modify fun _ => rfl

/-- The branch keeps the accounts, and the one that it creates is there. -/
theorem has_createBranch (o : Outcome) (draw : Draw) (v : Variables) (identity : Text)
    (r : Record) (h : d.Has username ∨
      ∃ password, (createBranch S o draw v d identity r).2.Creates username password) :
    (createBranch S o draw v d identity r).1.Has username := by
  obtain ⟨sname, -, hbranch⟩ := exists_createBranch_eq S o draw v d identity r
  rw [hbranch] at h ⊢
  rcases h with ⟨user, hmem, hname⟩ | ⟨password, account, haccount, hname, -⟩
  · exact ⟨user, List.mem_append_left _ hmem, hname⟩
  · have hmem : account.user ∈ (Option.map Account.user (o.newADUser S
        { d with ous := o.create d.ous (targetOU r) } identity sname (targetOU r)
          (v.attributes r) (PassGen draw))).toList := by
      rw [Option.mem_toList]
      exact Option.mem_map_of_mem _ haccount
    exact ⟨account.user, List.mem_append_right _ hmem, hname⟩

/-- An iteration keeps the accounts, and the one that it creates is there. -/
theorem has_recordRow (v : Variables) (row : Row) (h : d.Has username ∨
    ∃ password, (recordRow S v d row).2.2.Creates username password) :
    (recordRow S v d row).2.1.Has username := by
  have hnothing : (d.Has username ∨ ∃ password, Effect.nothing.Creates username password) →
      d.Has username := by
    rintro (h | ⟨password, h⟩)
    · exact h
    · exact absurd h (not_creates_nothing username password)
  cases hname : (v.assign row.record).username with
  | none =>
    simp only [recordRow, hname] at h ⊢
    exact hnothing h
  | some identity =>
    simp only [recordRow, hname] at h ⊢
    split_ifs at h ⊢ with husable hinactive hfound
    · exact hnothing h
    · exact (hnothing h).disableUser
    · exact (hnothing h).changeUser hfound
    · exact has_createBranch row.outcome row.draw _ _ _ h

/-- Where every iteration publishes what it creates, every name that was published with a
password is the name of an account in the end. -/
theorem has_of_published (v : Variables) (d : Directory) (rows : List Row)
    (hrecorded : ∀ e ∈ (recordRows S v d rows).2, e.Recorded) :
    (∀ user, d.Has user → (recordRows S v d rows).1.Has user) ∧
      ∀ e ∈ (recordRows S v d rows).2, ∀ entry ∈ e.log,
        (recordRows S v d rows).1.Has entry.username := by
  induction rows generalizing v d with
  | nil => exact ⟨fun _ h => h, fun e he => absurd he List.not_mem_nil⟩
  | cons row rows ih =>
    obtain ⟨hfirst, hrest⟩ := List.forall_mem_cons.mp hrecorded
    obtain ⟨hkept, hlater⟩ := ih (recordRow S v d row).1 (recordRow S v d row).2.1 hrest
    refine ⟨fun user h => hkept user (has_recordRow v row (Or.inl h)),
      List.forall_mem_cons.mpr ⟨fun entry hentry => ?_, hlater⟩⟩
    have hcreates := (hfirst.log entry.username entry.password).mp ⟨entry, hentry, rfl, rfl⟩
    exact hkept _ (has_recordRow v row (Or.inr ⟨_, hcreates⟩))

end Runs

section Example

local instance asciiCredentials : Culture := Culture.ascii

/-- A row whose unit lies in another domain. -/
def otherDomain : Record := fun
  | .orgTextRu => some "OU=Employees,DC=moskvich,DC=com".toList
  | c => ivanovPetr c

/-- No account is created, and a password is published. -/
theorem otherDomain_not_recorded :
    let d : Directory := ⟨[], [⟨"Employees".toList, "DC=moskvich,DC=ru".toList⟩]⟩
    let e := (recordRow unitService Variables.start d
      ⟨otherDomain, .usual unitService, firstDraw⟩).2.2
    e.account = none ∧ e.log.map LogEntry.username = ["pu00001".toList] ∧ ¬e.Recorded := by
  have hnone : (recordRow unitService Variables.start
      ⟨[], [⟨"Employees".toList, "DC=moskvich,DC=ru".toList⟩]⟩
        ⟨otherDomain, .usual unitService, firstDraw⟩).2.2.account = none := by
    decide +kernel
  have hsql : (recordRow unitService Variables.start
      ⟨[], [⟨"Employees".toList, "DC=moskvich,DC=ru".toList⟩]⟩
        ⟨otherDomain, .usual unitService, firstDraw⟩).2.2.addToSql =
          [("pu00001".toList, PassGen firstDraw)] := by
    decide +kernel
  refine ⟨hnone, by decide +kernel, fun h => ?_⟩
  obtain ⟨account, haccount, -⟩ := (h.addToSql _ _).mp (hsql ▸ List.mem_singleton_self _)
  rw [hnone] at haccount
  cases haccount

end Example

end OpsScripts.AddUser
