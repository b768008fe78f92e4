import Mathlib.Data.List.Nodup
import OpsScripts.Core.CloneStore
import OpsScripts.Core.Wildcard

/-!
# `groupRemove.ps1`

The disabled users of one container lose their security groups. A user with a certain name or with
one security group is left alone, and so is every group of domain users. The groups are removed by
their names, and a name stands for the group that has it as an identity.
-/

namespace OpsScripts.ActiveDirectory

/-- A user; `primaryGroup` is the name of a group that need not list the user. -/
structure User where
  distinguishedName : Text
  samAccountName : Text
  enabled : Bool
  primaryGroup : Text
  deriving DecidableEq

/-- A group with its identities. -/
structure Group where
  distinguishedName : Text
  name : Text
  samAccountName : Text
  objectGUID : Text
  objectSid : Text
  security : Bool
  deriving DecidableEq

/-- The users, the groups, and who is listed where. -/
structure Directory where
  users : List User
  groups : List Group
  members : List (Text × Text)
  distinct : (users.map User.distinguishedName).Nodup

section Script

variable [Culture] (d : Directory)

/-- The group with an identity. -/
def Directory.getADGroup (identity : Text) : Option Group :=
  d.groups.find? fun g => eqIgnoreCase g.samAccountName identity ||
    eqIgnoreCase g.distinguishedName identity || eqIgnoreCase g.objectGUID identity ||
    eqIgnoreCase g.objectSid identity

omit [Culture] in
/-- `Get-ADPrincipalGroupMembership -Identity $user | ? {$_.GroupCategory -eq "Security"}`. -/
def Directory.securityGroups (user : User) : List Group :=
  d.groups.filter fun g => g.security && (d.members.contains
    (user.distinguishedName, g.distinguishedName) || g.distinguishedName == user.primaryGroup)

/-- `Remove-ADGroupMember -Identity $GroupName -Member $user`; without such a group or such a
member there is only an error. -/
def Directory.removeADGroupMember (identity : Text) (user : User) : Directory :=
  match d.getADGroup identity with
  | none => d
  | some g => { d with
      members := d.members.filter fun m => m != (user.distinguishedName, g.distinguishedName) }

/-- `if ($GroupName -like "*Domain Users*") {Continue}`. -/
def isDomainUsers (group : Group) : Bool := like group.name "*Domain Users*"

/-- What is done with a user. -/
def Directory.removeGroups (user : User) : Directory :=
  if like user.samAccountName "*_*adm*" then d
  else
    let groups := d.securityGroups user
    if groups.length = 1 then d
    else groups.foldl (fun d group =>
      if isDomainUsers group then d else d.removeADGroupMember group.name user) d

/-- `-SearchBase $PSItem`. -/
def searchBase : Text := "OU=Disabled_Users,DC=action-crm,DC=local"

/-- `Get-ADUser -Filter {Enabled -eq $FALSE} -SearchBase $PSItem`. -/
def isSelected (user : User) : Bool :=
  !user.enabled && (toLower (',' :: searchBase)).isSuffixOf (toLower user.distinguishedName)

/-- The script. -/
def groupRemove : Directory := (d.users.filter isSelected).foldl Directory.removeGroups d

end Script

/-! ## What a start changes -/

/-- The directory with some of the memberships. -/
def Directory.withMembers (d : Directory) (p : Text × Text → Bool) : Directory :=
  { d with members := d.members.filter p }

section Members

variable {d : Directory} {p q : Text × Text → Bool} {user : User}

theorem Directory.withMembers_congr (h : ∀ m ∈ d.members, p m = q m) :
    d.withMembers p = d.withMembers q := by
  rw [withMembers, withMembers, List.filter_congr h]

theorem Directory.withMembers_withMembers (d : Directory) (p q : Text × Text → Bool) :
    (d.withMembers p).withMembers q = d.withMembers fun m => p m && q m := by
  rw [withMembers, withMembers, withMembers, List.filter_filter]
  simp only [Bool.and_comm]

theorem Directory.withMembers_eq_self (h : ∀ m ∈ d.members, p m = true) : d.withMembers p = d := by
  rw [withMembers, List.filter_eq_self.mpr h]

/-- Fewer memberships, fewer groups. -/
theorem Directory.securityGroups_withMembers (d : Directory) (p : Text × Text → Bool)
    (user : User) : ((d.withMembers p).securityGroups user).Sublist (d.securityGroups user) := by
  apply List.monotone_filter_right
  intro g hg
  rw [Bool.and_eq_true, Bool.or_eq_true, List.contains_iff_mem] at hg ⊢
  exact hg.imp_right (Or.imp_left fun h => (List.mem_filter.mp h).1)

/-- Another user's memberships do not matter. -/
theorem Directory.securityGroups_withMembers_of_spared
    (h : ∀ m ∈ d.members, m.1 = user.distinguishedName → p m = true) :
    (d.withMembers p).securityGroups user = d.securityGroups user := by
  apply List.filter_congr
  intro g _
  have hcontains : (d.members.filter p).contains (user.distinguishedName, g.distinguishedName) =
      d.members.contains (user.distinguishedName, g.distinguishedName) := by
    rw [Bool.eq_iff_iff, List.contains_iff_mem, List.contains_iff_mem, List.mem_filter]
    exact and_iff_left_of_imp fun hm => h _ hm rfl
  rw [← hcontains]
  rfl

end Members

section Lost

variable [Culture] {d : Directory} {user : User} {m : Text × Text}

/-- The group that a user loses for one of the groups that are found. -/
def Directory.lost (d : Directory) (group : Group) : Option Group :=
  if isDomainUsers group then none else d.getADGroup group.name

/-- A membership is not the one that is lost for a group. -/
def Directory.spares (d : Directory) (user : User) (m : Text × Text) (group : Group) : Bool :=
  (d.lost group).all fun g => m != (user.distinguishedName, g.distinguishedName)

/-- A membership stays when a user is worked on. -/
def Directory.keeps (d : Directory) (user : User) (m : Text × Text) : Bool :=
  like user.samAccountName "*_*adm*" || (d.securityGroups user).length == 1 ||
    (d.securityGroups user).all (d.spares user m)

/-- One group. -/
theorem Directory.removeADGroupMember_eq (d : Directory) (user : User) (group : Group) :
    (if isDomainUsers group then d else d.removeADGroupMember group.name user) =
      d.withMembers fun m => d.spares user m group := by
  have hspares : ∀ m, d.spares user m group =
      (d.lost group).all fun g => m != (user.distinguishedName, g.distinguishedName) :=
    fun _ => rfl
  simp only [hspares, lost]
  split_ifs
  · exact (withMembers_eq_self fun _ _ => rfl).symm
  · rw [removeADGroupMember]
    cases d.getADGroup group.name with
    | none => exact (withMembers_eq_self fun _ _ => rfl).symm
    | some g => rfl

/-- The groups of a user one after another. -/
theorem Directory.foldl_groups (d : Directory) (user : User) (groups : List Group) :
    groups.foldl (fun d group =>
        if isDomainUsers group then d else d.removeADGroupMember group.name user) d =
      d.withMembers fun m => groups.all (d.spares user m) := by
  induction groups using List.reverseRecOn with
  | nil => exact (withMembers_eq_self fun _ _ => rfl).symm
  | append_singleton groups group ih =>
    rw [List.foldl_append, List.foldl_cons, List.foldl_nil, ih, removeADGroupMember_eq,
      withMembers_withMembers]
    apply withMembers_congr
    intro m _
    rw [List.all_append, List.all_cons, List.all_nil, Bool.and_true]
    rfl

theorem Directory.removeGroups_eq (d : Directory) (user : User) :
    d.removeGroups user = d.withMembers (d.keeps user) := by
  have hkeeps : ∀ m, d.keeps user m = (like user.samAccountName "*_*adm*" ||
      (d.securityGroups user).length == 1 || (d.securityGroups user).all (d.spares user m)) :=
    fun _ => rfl
  simp only [removeGroups]
  split_ifs with hname hone
  · refine (withMembers_eq_self fun m _ => ?_).symm
    rw [hkeeps, hname, Bool.true_or, Bool.true_or]
  · refine (withMembers_eq_self fun m _ => ?_).symm
    rw [hkeeps, hone, beq_self_eq_true, Bool.or_true, Bool.true_or]
  · rw [foldl_groups]
    apply withMembers_congr
    intro m _
    rw [hkeeps, Bool.not_eq_true _ |>.mp hname, beq_eq_false_iff_ne.mpr hone, Bool.false_or,
      Bool.false_or]

/-- The membership of one user stays when another one is worked on. -/
theorem Directory.keeps_of_ne (h : m.1 ≠ user.distinguishedName) : d.keeps user m = true := by
  have hspares : ∀ group ∈ d.securityGroups user, d.spares user m group = true := by
    intro group _
    rw [spares, Option.all_eq_true]
    intro g _
    rw [bne_iff_ne]
    rintro rfl
    exact h rfl
  rw [keeps, List.all_eq_true.mpr hspares, Bool.or_true]

/-- A user keeps in a smaller directory what the user keeps in the larger one. -/
theorem Directory.keeps_withMembers {p : Text × Text → Bool} (h : d.keeps user m = true) :
    (d.withMembers p).keeps user m = true := by
  have hsublist := d.securityGroups_withMembers p user
  rw [keeps, Bool.or_eq_true, Bool.or_eq_true, beq_iff_eq, List.all_eq_true] at h ⊢
  rcases h with (hname | hone) | hall
  · exact Or.inl (Or.inl hname)
  · -- of one group either one is left or none
    have hle := hsublist.length_le
    rcases Nat.lt_or_ge 0 ((d.withMembers p).securityGroups user).length with hpos | hzero
    · exact Or.inl (Or.inr (by omega))
    · rw [List.length_eq_zero_iff.mp (Nat.le_zero.mp hzero)]
      exact Or.inr fun _ hgroup => absurd hgroup List.not_mem_nil
  · exact Or.inr fun group hgroup => hall group (hsublist.subset hgroup)

/-- The users one after another: what one of them loses does not matter for the next. -/
theorem Directory.foldl_users (d : Directory) {users : List User}
    (h : (users.map User.distinguishedName).Nodup) :
    users.foldl Directory.removeGroups d =
      d.withMembers fun m => users.all fun user => d.keeps user m := by
  induction users generalizing d with
  | nil => exact (withMembers_eq_self fun _ _ => rfl).symm
  | cons user users ih =>
    rw [List.map_cons, List.nodup_cons] at h
    rw [List.foldl_cons, removeGroups_eq, ih _ h.2, withMembers_withMembers]
    apply withMembers_congr
    intro m _
    rw [List.all_cons, Bool.eq_iff_iff, Bool.and_eq_true, Bool.and_eq_true]
    apply and_congr_right
    intro hkept
    rw [List.all_eq_true, List.all_eq_true]
    refine forall₂_congr fun other hother => ?_
    have hne : other.distinguishedName ≠ user.distinguishedName := fun heq =>
      h.1 (heq ▸ List.mem_map_of_mem hother)
    have hsame : (d.withMembers (d.keeps user)).securityGroups other = d.securityGroups other :=
      securityGroups_withMembers_of_spared fun m' _ hm' => keeps_of_ne (hm'.trans_ne hne)
    rw [keeps, keeps, hsame]
    rfl

/-- A user that the script works on loses a group. -/
structure Directory.Loses (d : Directory) (user : User) (g : Group) : Prop where
  selected : isSelected user = true
  named : like user.samAccountName "*_*adm*" = false
  count : (d.securityGroups user).length ≠ 1
  lost : ∃ group ∈ d.securityGroups user, isDomainUsers group = false ∧
    d.getADGroup group.name = some g

theorem Directory.keeps_eq_false_iff (hselected : isSelected user = true) :
    d.keeps user m = false ↔
      ∃ g, d.Loses user g ∧ m = (user.distinguishedName, g.distinguishedName) := by
  rw [keeps, Bool.or_eq_false_iff, Bool.or_eq_false_iff, beq_eq_false_iff_ne, List.all_eq_false]
  constructor
  · rintro ⟨⟨hnamed, hcount⟩, group, hgroup, hspares⟩
    rw [spares, Option.all_eq_true, not_forall₂] at hspares
    obtain ⟨g, hg, hm⟩ := hspares
    rw [bne_iff_ne, not_not] at hm
    rw [lost] at hg
    split_ifs at hg with husers
    exact ⟨g, ⟨hselected, hnamed, hcount, group, hgroup, Bool.not_eq_true _ |>.mp husers, hg⟩, hm⟩
  · rintro ⟨g, ⟨-, hnamed, hcount, group, hgroup, husers, hg⟩, hm⟩
    refine ⟨⟨hnamed, hcount⟩, group, hgroup, fun hspares => ?_⟩
    rw [spares, lost, husers, if_neg Bool.false_ne_true, hg, Option.all_some, bne_iff_ne] at hspares
    exact hspares hm

theorem groupRemove_eq (d : Directory) : groupRemove d =
    d.withMembers fun m => (d.users.filter isSelected).all fun user => d.keeps user m :=
  d.foldl_users (d.distinct.sublist (List.filter_sublist.map _))

/-- Behind a start exactly the memberships are gone that a user loses for a security group, by the
name of the group; a second start changes nothing. -/
theorem groupRemove_memberships (d : Directory) :
    (∀ m, m ∈ (groupRemove d).members ↔ m ∈ d.members ∧
      ∀ user ∈ d.users, ∀ g, d.Loses user g →
        m ≠ (user.distinguishedName, g.distinguishedName)) ∧
      groupRemove (groupRemove d) = groupRemove d := by
  have hkept : ∀ m, (d.users.filter isSelected).all (fun user => d.keeps user m) = true ↔
      ∀ user ∈ d.users, ∀ g, d.Loses user g →
        m ≠ (user.distinguishedName, g.distinguishedName) := by
    intro m
    rw [List.all_eq_true, List.forall_mem_filter]
    refine forall₂_congr fun user _ => ?_
    constructor
    · intro hkeeps g hg hm
      have hlost := (Directory.keeps_eq_false_iff hg.selected).mpr ⟨g, hg, hm⟩
      exact Bool.false_ne_true (hlost.symm.trans (hkeeps hg.selected))
    · intro hnone hselected
      rw [← Bool.not_eq_false, Directory.keeps_eq_false_iff hselected]
      rintro ⟨g, hg, hm⟩
      exact hnone g hg hm
  constructor
  · intro m
    rw [groupRemove_eq, Directory.withMembers, List.mem_filter, hkept]
  · rw [groupRemove_eq (groupRemove d)]
    apply Directory.withMembers_eq_self
    intro m hm
    rw [groupRemove_eq] at hm ⊢
    have hkeeps := (List.mem_filter.mp hm).2
    rw [List.all_eq_true] at hkeeps ⊢
    exact fun user huser => Directory.keeps_withMembers (hkeeps user huser)

end Lost

/-! ## A user that has left -/

section Example

local instance asciiGroupRemove : Culture := Culture.ascii

/-- A disabled user, and one that works. -/
def leaver : User :=
  ⟨"CN=Ivanov,OU=Disabled_Users,DC=action-crm,DC=local".toList, "ivanov".toList, false, "DU".toList⟩

def worker : User :=
  ⟨"CN=Petrov,OU=Users,DC=action-crm,DC=local".toList, "petrov".toList, true, "DU".toList⟩

def domainUsers : Group :=
  ⟨"DU".toList, "Domain Users".toList, "Domain Users".toList, "g0".toList, "s0".toList, true⟩

def managers : Group :=
  ⟨"CN=Managers".toList, "Managers".toList, "Managers".toList, "g1".toList, "s1".toList, true⟩

/-- Both are managers. -/
def office : Directory where
  users := [leaver, worker]
  groups := [domainUsers, managers]
  members := [(leaver.distinguishedName, managers.distinguishedName),
    (worker.distinguishedName, managers.distinguishedName)]
  distinct := by decide +kernel

/-- Only the one that works stays a manager. -/
theorem groupRemove_memberships_office :
    (leaver.distinguishedName, managers.distinguishedName) ∉ (groupRemove office).members ∧
      (worker.distinguishedName, managers.distinguishedName) ∈ (groupRemove office).members := by
  have hworker : isSelected worker = false := by decide +kernel
  have hother : worker.distinguishedName ≠ leaver.distinguishedName := by decide +kernel
  have hloses : office.Loses leaver managers :=
    ⟨by decide +kernel, by decide +kernel, by decide +kernel,
      managers, by decide +kernel, by decide +kernel, by decide +kernel⟩
  constructor
  · intro h
    exact (((groupRemove_memberships office).1 _).mp h).2 leaver List.mem_cons_self managers
      hloses rfl
  · refine ((groupRemove_memberships office).1 _).mpr ⟨by decide +kernel, ?_⟩
    intro user huser g hg hm
    obtain rfl | rfl : user = leaver ∨ user = worker := by simpa [office] using huser
    · exact hother (congrArg Prod.fst hm)
    · exact Bool.false_ne_true (hworker.symm.trans hg.selected)

end Example

end OpsScripts.ActiveDirectory
