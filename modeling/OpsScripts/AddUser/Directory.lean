import OpsScripts.AddUser.OrgUnits
import OpsScripts.AddUser.RowValues
import OpsScripts.AddUser.UniqueName

/-!
# Rows and the directory

What a row does to the users and the units of the directory. A user cannot be given a name
that another user of the same container has, neither by renaming nor by moving; the cmdlet
raises an error then. The branch that changes a user is a `try` block and ends at its first
error, the branch that creates one goes on.
-/

namespace OpsScripts.AddUser

/-- A user; `ou` is the distinguished name of its container, and the permission to dial in is not
there in the beginning. -/
structure User where
  samAccountName : Text
  name : Text
  ou : Text
  enabled : Bool
  attributes : Attributes
  msnpallowdialin : Option Bool
  deriving DecidableEq

/-- The users and the organizational units. -/
structure Directory where
  users : List User
  ous : List OU
  deriving DecidableEq

/-- The directory service: its way to write names, and the container that a distinguished
name denotes. -/
structure Service extends Escaping where
  container : List OU → Text → Option Text

/-- The names of all users. -/
def Directory.names (d : Directory) : List Text := d.users.map User.name

section Rows

variable [Culture] (S : Service)

/-! ## Cmdlets -/

/-- `Get-ADUser -Identity`, and `Get-ADUser -F { SamAccountName -eq … }`. -/
def Directory.getADUser (d : Directory) (identity : Text) : Option User :=
  d.users.find? fun user => eqIgnoreCase user.samAccountName identity

/-- Change the user with an account name. -/
def Directory.modify (d : Directory) (identity : Text) (f : User → User) : Directory :=
  { d with users := d.users.map fun user =>
      if eqIgnoreCase user.samAccountName identity then f user else user }

/-- Another user of the container has the name. -/
def Directory.occupied (d : Directory) (identity ou name : Text) : Bool :=
  d.users.any fun user =>
    !eqIgnoreCase user.samAccountName identity && eqIgnoreCase user.ou ou &&
      eqIgnoreCase user.name name

/-- `Get-ADUser … | Rename-ADObject -NewName`. -/
def renameADObject (d : Directory) (identity newName : Text) : Option Directory := do
  let user ← d.getADUser identity
  if d.occupied identity user.ou newName then none
  else some (d.modify identity fun user => { user with name := newName })

/-- `Get-ADUser … | Move-ADObject -TargetPath`. -/
def moveADObject (d : Directory) (identity targetPath : Text) : Option Directory := do
  let user ← d.getADUser identity
  let ou ← S.container d.ous targetPath
  if d.occupied identity ou user.name then none
  else some (d.modify identity fun user => { user with ou })

/-- `New-ADUser -SamAccountName … -Name … -Path …`. -/
def newADUser (d : Directory) (samAccountName name path : Text) (attributes : Attributes) :
    Option Directory := do
  let ou ← S.container d.ous path
  if d.occupied samAccountName ou name then none
  else some { d with users := d.users ++ [⟨samAccountName, name, ou, true, attributes, none⟩] }

/-! ## Branches -/

/-- `"$firstname $lastname"`. -/
def Variables.sname (v : Variables) (r : Record) : Text :=
  v.firstname.getD [] ++ ' ' :: (lastname v.firstname r).getD []

/-- The answer of `SName`. -/
def uniqueName (inTry : Bool) (d : Directory) (sname : Text) : Answer :=
  SName inTry d.names (enough d.names + 1) sname

/-- The branch that disables a user. -/
def disableUser (d : Directory) (username : Text) : Directory :=
  ((moveADObject S d username dismissedOU).getD d).modify username fun user =>
    { user with enabled := false }

/-- The search for a name and the renaming; an error is `none`. -/
def renameUser (d : Directory) (username sname : Text) : Option Directory :=
  match uniqueName true d sname with
  | .returned chName => do
    let user ← d.getADUser username
    if eqIgnoreCase user.name sname then some d else renameADObject d username chName
  | _ => none

/-- `create $OU` and the move to that unit. -/
def placeUser (d : Directory) (username OU : Text) : Directory :=
  let (ous, left) := create S.toEscaping .adduser true d.ous OU
  let d := { d with ous }
  if left then d else (moveADObject S d username OU).getD d

/-- The branch that changes a user. -/
def changeUser (v : Variables) (d : Directory) (username : Text) (r : Record) : Directory :=
  match renameUser d username (v.sname r) with
  | none => d
  | some d =>
    let d := d.modify username fun user =>
      { user with enabled := true, attributes := v.attributes r }
    placeUser S d username (targetOU r)

/-- The branch that creates a user. -/
def createUser (v : Variables) (d : Directory) (username : Text) (r : Record) : Directory :=
  match uniqueName false d (v.sname r) with
  | .returned sname =>
    let d := { d with ous := (create S.toEscaping .adduser false d.ous (targetOU r)).1 }
    (newADUser S d username sname (targetOU r) (v.attributes r)).getD d
  | _ => d

/-- One iteration: the variables and the directory it leaves. -/
def synchroniseRow (v : Variables) (d : Directory) (r : Record) : Variables × Directory :=
  let assigned := v.assign r
  match assigned.username with
  | none => (assigned, d)
  | some username =>
    if !usable username then (assigned, d)
    else if isInactive r then (assigned, disableUser S d username)
    else if (d.getADUser username).isSome then
      (assigned.reset, changeUser S assigned d username r)
    else (assigned.reset, createUser S assigned d username r)

end Rows

/-! ## Changes of one user -/

section Modify

variable [Culture] {d : Directory} {identity : Text} {f g : User → User}

@[simp] theorem modify_ous : (d.modify identity f).ous = d.ous := rfl

/-- A changed user is found where it was. -/
theorem getADUser_modify (hf : ∀ user, (f user).samAccountName = user.samAccountName) :
    (d.modify identity f).getADUser identity = (d.getADUser identity).map f := by
  have hsame : ∀ user : User,
      eqIgnoreCase (if eqIgnoreCase user.samAccountName identity then f user
        else user).samAccountName identity = eqIgnoreCase user.samAccountName identity := by
    intro user
    split
    · rw [hf]
    · rfl
  rw [Directory.getADUser, Directory.modify, List.find?_map, Directory.getADUser]
  simp only [Function.comp_def, hsame]
  cases hfind : d.users.find? fun user => eqIgnoreCase user.samAccountName identity with
  | none => rfl
  | some user =>
    have hmatch := List.find?_some hfind
    rw [Option.map_some, if_pos hmatch, Option.map_some]

/-- Other users keep their names and containers. -/
theorem occupied_modify (hf : ∀ user, (f user).samAccountName = user.samAccountName)
    (ou name : Text) :
    (d.modify identity f).occupied identity ou name = d.occupied identity ou name := by
  rw [Directory.occupied, Directory.modify, List.any_map, Directory.occupied]
  congr 1
  funext user
  by_cases hmatch : eqIgnoreCase user.samAccountName identity = true
  · simp only [Function.comp_apply, hmatch, if_true, hf, Bool.not_true, Bool.false_and]
  · simp only [Function.comp_apply, if_neg hmatch]

/-- Two changes are one. -/
theorem modify_modify (hf : ∀ user, (f user).samAccountName = user.samAccountName) :
    (d.modify identity f).modify identity g = d.modify identity (g ∘ f) := by
  rw [Directory.modify, Directory.modify, Directory.modify, List.map_map]
  congr 1
  apply List.map_congr_left
  intro user _
  by_cases hmatch : eqIgnoreCase user.samAccountName identity = true
  · simp only [Function.comp_apply, if_pos hmatch, hf]
  · simp only [Function.comp_apply, if_neg hmatch]

/-- A change is nothing where the user stays as it is. -/
theorem modify_eq_self (hf : ∀ user, f user = user) : d.modify identity f = d := by
  rw [Directory.modify]
  simp only [hf, ite_self, List.map_id']

end Modify

/-! ## The change of a user in one step -/

/-- The user behind a change; what is not given stays. -/
def User.update (name ou : Option Text) (attributes : Attributes) (user : User) : User :=
  { user with name := name.getD user.name, ou := ou.getD user.ou, enabled := true, attributes }

/-- A later change takes precedence. -/
theorem User.update_update (name name' ou ou' : Option Text) (attributes attributes' : Attributes)
    (user : User) :
    (user.update name ou attributes).update name' ou' attributes' =
      user.update (name'.or name) (ou'.or ou) attributes' := by
  cases name' <;> cases ou' <;> rfl

section Change

variable [Culture] (S : Service)

/-- The new name of a user, nothing where the name is kept; an error is `none`. -/
def newName (d : Directory) (username : Text) (user : User) (sname : Text) :
    Option (Option Text) :=
  match uniqueName true d sname with
  | .returned chName =>
    if eqIgnoreCase user.name sname then some none
    else if d.occupied username user.ou chName then none
    else some (some chName)
  | _ => none

/-- The container that a user is moved to. -/
def newContainer (d : Directory) (username name OU : Text) : Option Text :=
  if (create S.toEscaping .adduser true d.ous OU).2 then none
  else (S.container (create S.toEscaping .adduser true d.ous OU).1 OU).filter fun ou =>
    !d.occupied username ou name

variable {d : Directory} {username : Text} {user : User}

/-- The move leaves a change of the container only. -/
theorem placeUser_eq (hfound : d.getADUser username = some user) (OU : Text) :
    placeUser S d username OU =
      { d.modify username fun other =>
          { other with ou := (newContainer S d username user.name OU).getD other.ou } with
        ous := (create S.toEscaping .adduser true d.ous OU).1 } := by
  cases hcreate : create S.toEscaping .adduser true d.ous OU with
  | mk ous left =>
    have hkept : { d with ous } = { d.modify username (fun other => { other with
        ou := (none : Option Text).getD other.ou }) with ous } := by
      rw [modify_eq_self]
      exact fun _ => rfl
    have hfound' : Directory.getADUser { d with ous } username = some user := hfound
    rw [placeUser, newContainer, hcreate]
    cases left with
    | true =>
      simp only [if_true]
      exact hkept
    | false =>
      simp only [Bool.false_eq_true, if_false, moveADObject, hfound', Option.bind_eq_bind,
        Option.bind_some]
      cases S.container ous OU with
      | none =>
        simp only [Option.bind_none, Option.filter_none, Option.getD_none]
        exact hkept
      | some ou =>
        have hoccupied : Directory.occupied { d with ous } username ou user.name =
            d.occupied username ou user.name := rfl
        rw [Option.bind_some, hoccupied]
        by_cases hfree : d.occupied username ou user.name = true
        · rw [if_pos hfree, Option.filter_some, hfree]
          simp only [Bool.not_true, Bool.false_eq_true, if_false, Option.getD_none]
          exact hkept
        · rw [Bool.not_eq_true] at hfree
          rw [hfree, Option.filter_some, hfree]
          simp only [Bool.not_false, Bool.false_eq_true, if_false, if_true, Option.getD_some]
          rfl

/-- What becomes of a user that was found. -/
def changeOf (v : Variables) (d : Directory) (username : Text) (r : Record) (user : User)
    (name : Option Text) : User → User :=
  User.update name (newContainer S d username (name.getD user.name) (targetOU r)) (v.attributes r)

/-- The directory behind the change. -/
def changed (v : Variables) (d : Directory) (username : Text) (r : Record) (user : User)
    (name : Option Text) : Directory :=
  { d.modify username (changeOf S v d username r user name) with
    ous := (create S.toEscaping .adduser true d.ous (targetOU r)).1 }

/-- The branch stops before it has changed anything, or it changes the user at once. -/
theorem changeUser_eq (hfound : d.getADUser username = some user) (v : Variables) (r : Record) :
    changeUser S v d username r =
      match newName d username user (v.sname r) with
      | none => d
      | some name => changed S v d username r user name := by
  have hplace : ∀ name : Option Text,
      placeUser S (d.modify username fun user =>
          { user with name := name.getD user.name, enabled := true, attributes := v.attributes r })
        username (targetOU r) = changed S v d username r user name := by
    intro name
    have hnamed : (d.modify username fun user => { user with
        name := name.getD user.name, enabled := true, attributes := v.attributes r }).getADUser
          username = some { user with
            name := name.getD user.name, enabled := true, attributes := v.attributes r } := by
      rw [getADUser_modify, hfound, Option.map_some]
      exact fun _ => rfl
    have hcontainer : ∀ name' : Text, newContainer S (d.modify username fun user => { user with
        name := name.getD user.name, enabled := true, attributes := v.attributes r }) username name'
          (targetOU r) = newContainer S d username name' (targetOU r) := by
      intro name'
      rw [newContainer, newContainer]
      simp only [modify_ous]
      congr 2
      funext ou
      rw [occupied_modify]
      exact fun _ => rfl
    rw [placeUser_eq S hnamed, hcontainer, modify_modify]
    · rfl
    · exact fun _ => rfl
  rw [changeUser, renameUser, newName]
  cases uniqueName true d (v.sname r) with
  | running => rfl
  | raised => rfl
  | returned chName =>
    simp only [hfound, Option.bind_eq_bind, Option.bind_some]
    by_cases hname : eqIgnoreCase user.name (v.sname r) = true
    · rw [if_pos hname, if_pos hname]
      exact hplace none
    · rw [if_neg hname, if_neg hname, renameADObject, hfound, Option.bind_eq_bind, Option.bind_some]
      by_cases hfree : d.occupied username user.ou chName = true
      · rw [if_pos hfree, if_pos hfree]
      · rw [if_neg hfree, if_neg hfree]
        dsimp only
        rw [modify_modify]
        · exact hplace (some chName)
        · exact fun _ => rfl

variable {S} {v : Variables} {r : Record} {name : Option Text}

variable (S v r name) in
/-- The changed user is found. -/
theorem getADUser_changed (hfound : d.getADUser username = some user) :
    (changed S v d username r user name).getADUser username =
      some (changeOf S v d username r user name user) := by
  have hmodified : (d.modify username (changeOf S v d username r user name)).getADUser username =
      some (changeOf S v d username r user name user) := by
    rw [getADUser_modify, hfound, Option.map_some]
    exact fun _ => rfl
  exact hmodified

/-- The other users keep their names and containers. -/
theorem occupied_changed (ou other : Text) :
    (changed S v d username r user name).occupied username ou other =
      d.occupied username ou other :=
  occupied_modify (f := changeOf S v d username r user name) (fun _ => rfl) ou other

/-! ## The values that are written -/

/-- A row that is skipped leaves the directory alone. -/
theorem synchroniseRow_of_skipped (h : (v.assign r).username.any usable = false) :
    synchroniseRow S v d r = (v.assign r, d) := by
  cases hname : (v.assign r).username with
  | none => simp only [synchroniseRow, hname]
  | some username =>
    rw [hname, Option.any_some] at h
    simp only [synchroniseRow, hname, h, Bool.not_false, if_true]

/-- A row that is not skipped changes the user that it finds. -/
theorem synchroniseRow_of_found (hname : (v.assign r).username = some username)
    (husable : usable username = true) (hactive : isInactive r = false)
    (hfound : d.getADUser username = some user) :
    synchroniseRow S v d r = ((v.assign r).reset, changeUser S (v.assign r) d username r) := by
  simp only [synchroniseRow, hname, husable, hactive, hfound, Bool.not_true, Bool.false_eq_true,
    if_false, Option.isSome_some, if_true]

/-- What the loop over the rows learns about a row: whether its user exists, and whether the
change gets as far as writing. -/
def lookupOf (d : Directory) (v : Variables) (r : Record) : Lookup :=
  match d.getADUser (v.username.getD []) with
  | some user => .found (newName d (v.username.getD []) user (v.sname r)).isSome
  | none => .missing

/-- The directory has no say in the variables. -/
theorem synchroniseRow_fst (d : Directory) :
    (synchroniseRow S v d r).1 = (applyRow v (r, lookupOf d (v.assign r) r)).1 := by
  cases hname : (v.assign r).username with
  | none => simp [synchroniseRow, applyRow, hname]
  | some username =>
    by_cases husable : usable username = true
    · by_cases hactive : isInactive r = true
      · simp [synchroniseRow, applyRow, hname, husable, hactive]
      · rw [Bool.not_eq_true] at hactive
        cases hfound : d.getADUser username with
        | none => simp [synchroniseRow, applyRow, lookupOf, hname, husable, hactive, hfound]
        | some user => simp [synchroniseRow, applyRow, lookupOf, hname, husable, hactive, hfound]
    · rw [Bool.not_eq_true] at husable
      simp [synchroniseRow, applyRow, hname, husable]

/-- The values that are written for a user are the ones it has in the directory then. -/
theorem getADUser_of_written {attributes : Attributes}
    (hfound : d.getADUser ((v.assign r).username.getD []) = some user)
    (hwritten : (applyRow v (r, lookupOf d (v.assign r) r)).2 = some attributes) :
    ∃ user', (synchroniseRow S v d r).2.getADUser ((v.assign r).username.getD []) = some user' ∧
      user'.attributes = attributes ∧ user'.enabled = true := by
  have hattributes := eq_attributes_of_applyRow hwritten
  cases hname : (v.assign r).username with
  | none => simp [applyRow, hname] at hwritten
  | some username =>
    rw [hname, Option.getD_some] at hfound
    by_cases hskip : usable username = true ∧ isInactive r = false
    · obtain ⟨husable, hactive⟩ := hskip
      cases hnew : newName d username user ((v.assign r).sname r) with
      | none => simp [applyRow, lookupOf, hname, husable, hactive, hfound, hnew] at hwritten
      | some name =>
        refine ⟨changeOf S (v.assign r) d username r user name user, ?_, hattributes.symm, rfl⟩
        rw [synchroniseRow_of_found hname husable hactive hfound, changeUser_eq S hfound, hnew,
          Option.getD_some, getADUser_changed S (v.assign r) r name hfound]
    · exfalso
      have hnone : (!(v.assign r).username.any usable || isInactive r) = true := by
        rw [hname, Option.any_some]
        cases husable : usable username with
        | false => rfl
        | true =>
          cases hactive : isInactive r with
          | false => exact absurd ⟨husable, hactive⟩ hskip
          | true => rfl
      simp [applyRow, hnone] at hwritten

end Change

end OpsScripts.AddUser
