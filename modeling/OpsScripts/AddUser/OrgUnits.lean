import OpsScripts.Core.Text

/-!
# Organizational units

Active Directory keeps a unit under a parent that has to exist, and no two units have one
distinguished name; names are compared without case. `Create` cuts the distinguished name
it is given at its commas and works its way down from `OU=Employees`, with every ancestor
that it does not find. Both scripts have the function; the one of `adduser.ps1` trims the
name once more.
-/

namespace OpsScripts.AddUser

/-! ## The directory -/

/-- The characters that are escaped inside of a name. -/
def isReserved (c : Char) : Bool := ",+\"\\<>;=".toList.contains c

/-- A name without reserved characters, and without a blank or a number sign at its ends. -/
def Ordinary (name : Text) : Prop :=
  (∀ c ∈ name, isReserved c = false) ∧ (∀ c ∈ name.head?, c ≠ ' ' ∧ c ≠ '#') ∧
    ∀ c ∈ name.getLast?, c ≠ ' '

/-- How a name is written inside of a distinguished name. -/
structure Escaping where
  escape : Text → Text
  ordinary : ∀ name, Ordinary name → escape name = name
  comma : ∀ name, ',' ∈ escape name → ',' ∈ name

/-- A unit: its name and the distinguished name of its parent. -/
structure OU where
  name : Text
  path : Text
  deriving DecidableEq

section Directory

variable [Culture] (D : Escaping)

/-- The component of a name. -/
def component (name : Text) : Text := "OU=".toList ++ D.escape name

/-- The distinguished name of a child. -/
def child (path name : Text) : Text := component D name ++ ',' :: path

/-- `Distinguishedname`. -/
def OU.distinguishedname (ou : OU) : Text := child D ou.path ou.name

/-- `OUsearch`. -/
def OUsearch (ous : List OU) (inString : Text) : Bool :=
  ous.any fun ou => eqIgnoreCase (ou.distinguishedname D) inString

/-- `New-ADOrganizationalUnit`; an error is `none`. -/
def newADOrganizationalUnit (name path : Text) (ous : List OU) : Option (List OU) :=
  if name ≠ [] ∧ OUsearch D ous path = true ∧ OUsearch D ous (child D path name) = false then
    some (ous ++ [⟨name, path⟩])
  else none

end Directory

/-! ## The function -/

/-- The scripts that have a function `Create`. -/
inductive Script where
  | adduser
  | functionCreateOU
  deriving DecidableEq

/-- `trim("OU=")`: the three characters are removed from both ends. -/
def trimOU (t : Text) : Text :=
  let out := fun c => "OU=".toList.contains c
  ((t.dropWhile out).reverse.dropWhile out).reverse

/-- The name that `Create` passes on for a piece of the path. -/
def Script.name (script : Script) (result : Text) : Text :=
  match script with
  | .adduser => trim (trimOU result)
  | .functionCreateOU => trimOU result

/-- `OU=Employees,DC=moskvich,DC=ru`. -/
def base : Text := "OU=Employees,DC=moskvich,DC=ru".toList

section Create

variable [Culture] (D : Escaping) (script : Script) (inTry : Bool)

/-- The loop of `Create` over the pieces, from the last one on. An error of the cmdlet
leaves the function inside a `try`, elsewhere it is reported and the loop goes on. The
second result says whether the function was left. -/
def createLoop : List Text → List OU → Text → List OU × Bool
  | [], ous, _ => (ous, false)
  | result :: rest, ous, create =>
    let searh := result ++ ',' :: create
    if OUsearch D ous searh then createLoop rest ous searh
    else
      match newADOrganizationalUnit D (script.name result) create ous with
      | some ous => createLoop rest ous searh
      | none => if inTry then (ous, true) else createLoop rest ous searh

/-- `Create`: the last three pieces of the path are those of the base. -/
def create (ous : List OU) (OUName : Text) : List OU × Bool :=
  if OUsearch D ous OUName then (ous, false)
  else
    let path1 := OUName.splitOn ','
    createLoop D script inTry (path1.take (path1.length - 3)).reverse ous base

end Create

/-- A backslash in front of every reserved character. -/
def Escaping.backslash : Escaping where
  escape name := name.flatMap fun c => if isReserved c then ['\\', c] else [c]
  ordinary name h := by
    have hflat : ∀ t : Text, (∀ c ∈ t, isReserved c = false) →
        (t.flatMap fun c => if isReserved c then ['\\', c] else [c]) = t := by
      intro t ht
      induction t with
      | nil => rfl
      | cons c t ih =>
        rw [List.flatMap_cons, ht c List.mem_cons_self,
          ih fun d hd => ht d (List.mem_cons_of_mem c hd)]
        rfl
    exact hflat name h.1
  comma name h := by
    obtain ⟨c, hc, hcomma⟩ := List.mem_flatMap.mp h
    split_ifs at hcomma
    · rcases List.mem_cons.mp hcomma with hback | hcomma
      · cases hback
      · rwa [List.mem_singleton.mp hcomma]
    · rwa [List.mem_singleton.mp hcomma]

/-! ## Units only grow -/

section Growth

variable [Culture] {D : Escaping} {script : Script} {inTry : Bool}

theorem OUsearch_append (ous new : List OU) (t : Text) :
    OUsearch D (ous ++ new) t = (OUsearch D ous t || OUsearch D new t) :=
  List.any_append

theorem OUsearch_singleton (ou : OU) (t : Text) :
    OUsearch D [ou] t = eqIgnoreCase (ou.distinguishedname D) t := by
  rw [OUsearch, List.any_cons, List.any_nil, Bool.or_false]

/-- A new unit is found. -/
theorem OUsearch_new (ous : List OU) (path name : Text) :
    OUsearch D (ous ++ [⟨name, path⟩]) (child D path name) = true := by
  rw [OUsearch_append, OUsearch_singleton, OU.distinguishedname, eqIgnoreCase_self, Bool.or_true]

/-- Texts of different length are different distinguished names. -/
theorem OUsearch_new_of_length {ous : List OU} {path name t : Text}
    (h : (child D path name).length ≠ t.length) :
    OUsearch D (ous ++ [⟨name, path⟩]) t = OUsearch D ous t := by
  have hne : eqIgnoreCase (child D path name) t = false := by
    rw [← Bool.not_eq_true, eqIgnoreCase_iff]
    intro heq
    have hlength := congrArg List.length heq
    rw [toLower, toLower, List.length_map, List.length_map] at hlength
    exact h hlength
  rw [OUsearch_append, OUsearch_singleton, OU.distinguishedname, hne, Bool.or_false]

omit [Culture] in
theorem length_lt_child (path name : Text) : path.length < (child D path name).length := by
  simp only [child, List.length_append, List.length_cons]
  omega

theorem newADOrganizationalUnit_eq_some {name path : Text} {ous ous' : List OU}
    (h : newADOrganizationalUnit D name path ous = some ous') : ous' = ous ++ [⟨name, path⟩] := by
  rw [newADOrganizationalUnit] at h
  split_ifs at h
  exact (Option.some.inj h).symm

section Step

variable {ous ous' : List OU} {result path : Text} (rest : List Text)

theorem createLoop_of_found (h : OUsearch D ous (result ++ ',' :: path) = true) :
    createLoop D script inTry (result :: rest) ous path =
      createLoop D script inTry rest ous (result ++ ',' :: path) := by
  rw [createLoop, if_pos h]

theorem createLoop_of_some (h : ¬OUsearch D ous (result ++ ',' :: path) = true)
    (hnew : newADOrganizationalUnit D (script.name result) path ous = some ous') :
    createLoop D script inTry (result :: rest) ous path =
      createLoop D script inTry rest ous' (result ++ ',' :: path) := by
  rw [createLoop, if_neg h, hnew]

theorem createLoop_of_none (h : ¬OUsearch D ous (result ++ ',' :: path) = true)
    (hnew : newADOrganizationalUnit D (script.name result) path ous = none) :
    createLoop D script inTry (result :: rest) ous path =
      if inTry then (ous, true)
      else createLoop D script inTry rest ous (result ++ ',' :: path) := by
  rw [createLoop, if_neg h, hnew]

end Step

variable (D script inTry) in
/-- What the loop adds lies under the path it has reached. -/
theorem exists_createLoop (results : List Text) (ous : List OU) (path : Text) :
    ∃ new, (createLoop D script inTry results ous path).1 = ous ++ new ∧
      ∀ ou ∈ new, path.length ≤ ou.path.length := by
  have hnone : ∀ (ous : List OU) (path : Text),
      ∃ new, ous = ous ++ new ∧ ∀ ou ∈ new, path.length ≤ ou.path.length :=
    fun ous _ => ⟨[], (List.append_nil ous).symm, fun _ h => absurd h List.not_mem_nil⟩
  induction results generalizing ous path with
  | nil => exact hnone ous path
  | cons result rest ih =>
    have hdown : ∀ ous', ∃ new,
        (createLoop D script inTry rest ous' (result ++ ',' :: path)).1 = ous' ++ new ∧
          ∀ ou ∈ new, path.length ≤ ou.path.length := by
      intro ous'
      obtain ⟨new, hnew, hpath⟩ := ih ous' (result ++ ',' :: path)
      refine ⟨new, hnew, fun ou hou => ?_⟩
      have hlength := hpath ou hou
      rw [List.length_append, List.length_cons] at hlength
      omega
    by_cases hfound : OUsearch D ous (result ++ ',' :: path) = true
    · rw [createLoop_of_found rest hfound]
      exact hdown ous
    · cases hcreate : newADOrganizationalUnit D (script.name result) path ous with
      | some ous' =>
        rw [createLoop_of_some rest hfound hcreate]
        obtain rfl := newADOrganizationalUnit_eq_some hcreate
        obtain ⟨new, hnew, hpath⟩ := hdown (ous ++ [⟨script.name result, path⟩])
        refine ⟨⟨script.name result, path⟩ :: new, ?_, ?_⟩
        · rw [hnew, List.append_assoc, List.singleton_append]
        · exact List.forall_mem_cons.mpr ⟨le_rfl, hpath⟩
      | none =>
        rw [createLoop_of_none rest hfound hcreate]
        cases inTry
        · exact hdown ous
        · exact hnone ous path

end Growth

end OpsScripts.AddUser
