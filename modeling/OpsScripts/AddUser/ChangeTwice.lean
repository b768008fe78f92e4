import OpsScripts.AddUser.CreateTree
import OpsScripts.AddUser.Directory

/-!
# Changing a user twice

A row that changes a user is processed twice. The second time the user is renamed again
if it did not get the plain name the first time, for the comparison is with the plain name
while the search for a free name finds the user itself. What the rows before have left in
the variables makes a difference too: it is gone the second time.
-/

namespace OpsScripts.AddUser

section Twice

variable [Culture]

/-! ## A second call of `Create` -/

/-- A comma is the lower case of no other character. -/
def CommaLower : Prop := ∀ c : Char, Culture.lower c = ',' → c = ','

theorem count_toLower (h : CommaLower) (t : Text) : (toLower t).count ',' = t.count ',' := by
  have hcomma : ∀ c : Char, (Culture.lower c == ',') = (c == ',') := by
    intro c
    rw [Bool.eq_iff_iff, beq_iff_eq, beq_iff_eq]
    constructor
    · exact h c
    · rintro rfl
      exact Culture.lower_ascii ',' (by decide)
  rw [toLower, List.count_eq_countP, List.countP_map, List.count_eq_countP]
  exact congrArg (fun p => List.countP p t) (funext hcomma)

variable {D : Escaping} {script : Script}

omit [Culture] in
/-- A unit that is created for a piece has one comma more than its path. -/
theorem count_child {result : Text} (hresult : ',' ∉ result) (path : Text) :
    (child D path (script.name result)).count ',' = path.count ',' + 1 := by
  have hname : ',' ∉ component D (script.name result) :=
    notMem_component fun h => hresult (mem_of_mem_name (D.comma _ h))
  rw [child, List.count_append, List.count_eq_zero_of_not_mem hname, List.count_cons_self,
    Nat.zero_add]

/-- Units that were found stay found. -/
theorem OUsearch_createLoop {inTry : Bool} {ous : List OU} {t : Text}
    (h : OUsearch D ous t = true) (results : List Text) (path : Text) :
    OUsearch D (createLoop D script inTry results ous path).1 t = true := by
  obtain ⟨new, hnew, -⟩ := exists_createLoop D script inTry results ous path
  rw [hnew, OUsearch_append, h, Bool.true_or]

variable (D script) in
/-- A second run of the loop adds nothing, and it is left if the first one was. -/
theorem createLoop_again (results : List Text) (ous : List OU) (path : Text) :
    (createLoop D script true results (createLoop D script true results ous path).1 path).1 =
        (createLoop D script true results ous path).1 ∧
      ((createLoop D script true results ous path).2 = true →
        (createLoop D script true results
          (createLoop D script true results ous path).1 path).2 = true) := by
  induction results generalizing ous path with
  | nil => exact ⟨rfl, id⟩
  | cons result rest ih =>
    by_cases hfound : OUsearch D ous (result ++ ',' :: path) = true
    · rw [createLoop_of_found rest hfound,
        createLoop_of_found rest (OUsearch_createLoop hfound rest _)]
      exact ih ous (result ++ ',' :: path)
    · cases hcreate : newADOrganizationalUnit D (script.name result) path ous with
      | none => simp [createLoop_of_none rest hfound hcreate]
      | some ous' =>
        rw [createLoop_of_some rest hfound hcreate]
        by_cases hnow : OUsearch D
            (createLoop D script true rest ous' (result ++ ',' :: path)).1
            (result ++ ',' :: path) = true
        · rw [createLoop_of_found rest hnow]
          exact ih ous' (result ++ ',' :: path)
        · -- the unit was created under another name, which is taken now
          have hchild : OUsearch D (createLoop D script true rest ous' (result ++ ',' :: path)).1
              (child D path (script.name result)) = true := by
            refine OUsearch_createLoop ?_ rest _
            rw [newADOrganizationalUnit_eq_some hcreate]
            exact OUsearch_new ous path (script.name result)
          have hrefused : newADOrganizationalUnit D (script.name result) path
              (createLoop D script true rest ous' (result ++ ',' :: path)).1 = none := by
            rw [newADOrganizationalUnit, if_neg]
            rw [hchild]
            simp
          simp [createLoop_of_none rest hnow hrefused]

/-- A run that is left has not created the unit at the end of the path. -/
theorem OUsearch_of_left (hlower : CommaLower) {results : List Text} {ous : List OU}
    {path t : Text} (hresults : ∀ result ∈ results, ',' ∉ result)
    (ht : t.count ',' = path.count ',' + results.length)
    (h : (createLoop D script true results ous path).2 = true) :
    OUsearch D (createLoop D script true results ous path).1 t = OUsearch D ous t := by
  induction results generalizing ous path with
  | nil => cases h
  | cons result rest ih =>
    have hresult := hresults result List.mem_cons_self
    have hrest : ∀ result ∈ rest, ',' ∉ result :=
      fun other hother => hresults other (List.mem_cons_of_mem result hother)
    have hcount : t.count ',' = (result ++ ',' :: path).count ',' + rest.length := by
      rw [ht, List.count_append, List.count_eq_zero_of_not_mem hresult, List.count_cons_self,
        List.length_cons]
      omega
    by_cases hfound : OUsearch D ous (result ++ ',' :: path) = true
    · rw [createLoop_of_found rest hfound] at h ⊢
      exact ih hrest hcount h
    · cases hcreate : newADOrganizationalUnit D (script.name result) path ous with
      | none => simp [createLoop_of_none rest hfound hcreate]
      | some ous' =>
        rw [createLoop_of_some rest hfound hcreate] at h ⊢
        rw [ih hrest hcount h, newADOrganizationalUnit_eq_some hcreate, OUsearch_append,
          OUsearch_singleton, OU.distinguishedname]
        have hlength : rest ≠ [] := by
          rintro rfl
          cases h
        have hne : eqIgnoreCase (child D path (script.name result)) t = false := by
          rw [← Bool.not_eq_true, eqIgnoreCase_iff]
          intro heq
          have hcommas := congrArg (List.count ',') heq
          rw [count_toLower hlower, count_toLower hlower, count_child hresult, ht,
            List.length_cons] at hcommas
          have hpos := List.length_pos_of_ne_nil hlength
          omega
        rw [hne, Bool.or_false]

/-- The pieces of a path that the loop runs over, the topmost first. -/
def levels (OUName : Text) : List Text :=
  ((OUName.splitOn ',').take ((OUName.splitOn ',').length - 3)).reverse

omit [Culture] in
theorem notMem_of_mem_levels {OUName result : Text} (h : result ∈ levels OUName) :
    ',' ∉ result :=
  notMem_of_mem_splitOn (List.mem_of_mem_take (List.mem_reverse.mp h))

omit [Culture] in
theorem count_eq_length_levels {OUName : Text} (h : levels OUName ≠ []) :
    OUName.count ',' = base.count ',' + (levels OUName).length := by
  have hbase : base.count ',' = 2 := by decide
  have hlength : (levels OUName).length = OUName.count ',' + 1 - 3 := by
    rw [levels, List.length_reverse, List.length_take, length_splitOn]
    omega
  have hpos := List.length_pos_of_ne_nil h
  omega

variable (D script) in
/-- A second call adds nothing, and it fails if the first one did. -/
theorem create_again (hlower : CommaLower) (ous : List OU) (OUName : Text) :
    (create D script true (create D script true ous OUName).1 OUName).1 =
        (create D script true ous OUName).1 ∧
      ((create D script true ous OUName).2 = true →
        (create D script true (create D script true ous OUName).1 OUName).2 = true) := by
  by_cases hfound : OUsearch D ous OUName = true
  · have hfirst : create D script true ous OUName = (ous, false) := by
      rw [create, if_pos hfound]
    rw [hfirst, hfirst]
    exact ⟨rfl, id⟩
  · have hfirst : create D script true ous OUName =
        createLoop D script true (levels OUName) ous base := by
      rw [create, if_neg hfound]
      rfl
    obtain ⟨hous, hleft⟩ := createLoop_again D script (levels OUName) ous base
    rw [hfirst]
    by_cases hnow : OUsearch D (createLoop D script true (levels OUName) ous base).1 OUName = true
    · rw [create, if_pos hnow]
      refine ⟨rfl, fun h => ?_⟩
      have hlevels : levels OUName ≠ [] := by
        intro hnil
        rw [hnil] at h
        cases h
      rw [OUsearch_of_left hlower (fun _ => notMem_of_mem_levels) (count_eq_length_levels hlevels)
        h] at hnow
      exact absurd hnow hfound
    · rw [create, if_neg hnow]
      exact ⟨hous, hleft⟩

/-! ## The variables -/

/-- A variable that is reset is assigned by the row, or no row before has set it. -/
def Unstained (v : Variables) (r : Record) : Prop :=
  ((∃ c cs, r .surname = some (c :: cs)) ∨ v.firstname = none) ∧
    ((r .emailShort).isSome ∨ v.email = none)

theorem assign_assign (v : Variables) (r : Record) : (v.assign r).assign r = v.assign r := by
  simp only [Variables.assign, ← Option.or_assoc, Option.or_self]

theorem isSome_capitalise {cell : Option Text} :
    (capitalise cell).isSome ↔ ∃ c cs, cell = some (c :: cs) := by
  rcases cell with _ | _ | ⟨c, cs⟩ <;> simp [capitalise]

/-- Only the variables that are reset can make a difference. -/
theorem assign_reset_eq_iff (v : Variables) (r : Record) :
    (v.assign r).reset.assign r = v.assign r ↔
      ((v.assign r).reset.assign r).firstname = (v.assign r).firstname ∧
        ((v.assign r).reset.assign r).email = (v.assign r).email := by
  have hagain := assign_assign v r
  have husername : ((v.assign r).assign r).username = (v.assign r).username := by rw [hagain]
  have hfather : ((v.assign r).assign r).fathername = (v.assign r).fathername := by rw [hagain]
  constructor
  · intro h
    rw [h]
    exact ⟨rfl, rfl⟩
  · rintro ⟨hfirst, hmail⟩
    ext1
    · exact husername
    · exact hfirst
    · exact hmail
    · exact hfather

/-- The row assigns the same values again, unless it keeps a value of an earlier row. -/
theorem assign_reset_iff (v : Variables) (r : Record) :
    (v.assign r).reset.assign r = v.assign r ↔ Unstained v r := by
  have hor : ∀ new old : Option Text,
      (new.or none = new.or old) ↔ (new.isSome = true ∨ old = none) := by
    intro new old
    cases new <;> cases old <;> simp
  have hemail : (emailOf r).isSome = (r .emailShort).isSome := Option.isSome_map
  rw [assign_reset_eq_iff, Unstained, ← isSome_capitalise, ← hemail, ← hor, ← hor]
  rfl

/-! ## The directory -/

variable (S : Service)

/-- A second processing leaves the directory as the first one did. -/
def Idempotent (v : Variables) (d : Directory) (r : Record) : Prop :=
  let once := synchroniseRow S v d r
  (synchroniseRow S once.1 once.2 r).2 = once.2

/-- The plain name is no pattern, the name of the user, or fits no user. -/
def NameSettled (d : Directory) (user : User) (sname : Text) : Prop :=
  Wildcard.parse sname = none ∨ eqIgnoreCase user.name sname ∨
    ∀ name ∈ d.names, like name sname = false

/-- The row is skipped, or its variables and the name of the user are settled. -/
def Settled (v : Variables) (d : Directory) (r : Record) (user : User) : Prop :=
  (v.assign r).username.any usable = false ∨
    (Unstained v r ∧ NameSettled d user ((v.assign r).sname r))

section Process

variable {S} {v : Variables} {d : Directory} {r : Record} {user : User} {username sname : Text}

/-- The answer of the search inside the `try`. -/
theorem uniqueName_eq (d : Directory) (sname : Text) (hsome : (Wildcard.parse sname).isSome) :
    ∃ k, uniqueName true d sname = .returned (underscored sname k) ∧
      d.names.any (fun other => like other (underscored sname k)) = false ∧
      ∀ j < k, d.names.any (fun other => like other (underscored sname j)) = true :=
  exists_SName_eq_returned fun _ _ => hsome

theorem mem_names (hfound : d.getADUser username = some user) : user.name ∈ d.names :=
  List.mem_map_of_mem (List.mem_of_find?_eq_some hfound)

/-- An invalid pattern stops the branch. -/
theorem newName_of_invalid (hfound : d.getADUser username = some user)
    (hnone : Wildcard.parse sname = none) : newName d username user sname = none := by
  have hne : d.names ≠ [] := List.ne_nil_of_mem (mem_names hfound)
  have hraise : ¬NoError true d.names sname := by
    intro h
    have hsome := h rfl hne
    rw [hnone] at hsome
    cases hsome
  rw [newName, uniqueName, SName, findUser_eq_none hraise]

/-- A user whose name is settled has the plain name behind the change. -/
theorem eqIgnoreCase_of_newName (hsettled : NameSettled d user sname)
    (hfound : d.getADUser username = some user) {name : Option Text}
    (hname : newName d username user sname = some name) :
    eqIgnoreCase (name.getD user.name) sname = true ∧ (Wildcard.parse sname).isSome := by
  by_cases hsome : (Wildcard.parse sname).isSome
  · refine ⟨?_, hsome⟩
    obtain ⟨k, hreturned, -, hbefore⟩ := uniqueName_eq d sname hsome
    rw [newName, hreturned] at hname
    dsimp only at hname
    split_ifs at hname with hown hoccupied
    · obtain rfl := Option.some.inj hname
      exact hown
    · obtain rfl := Option.some.inj hname
      have hfree : ∀ name ∈ d.names, like name sname = false := by
        rcases hsettled with hnone | hsame | hfree
        · rw [hnone] at hsome
          cases hsome
        · exact absurd hsame hown
        · exact hfree
      have hzero : k = 0 := by
        by_contra hk
        obtain ⟨other, hother, hlike⟩ := List.any_eq_true.mp (hbefore 0 (Nat.pos_of_ne_zero hk))
        rw [underscored, List.replicate_zero, List.append_nil, hfree other hother] at hlike
        cases hlike
      rw [hzero, underscored, List.replicate_zero, List.append_nil, Option.getD_some]
      exact eqIgnoreCase_self sname
  · rw [Option.not_isSome_iff_eq_none] at hsome
    rw [newName_of_invalid hfound hsome] at hname
    cases hname

/-- A user with the plain name keeps it. -/
theorem newName_of_eq (hown : eqIgnoreCase user.name sname = true)
    (hsome : (Wildcard.parse sname).isSome) : newName d username user sname = some none := by
  obtain ⟨k, hreturned, -⟩ := uniqueName_eq d sname hsome
  rw [newName, hreturned]
  dsimp only
  rw [if_pos hown]

/-- A second move ends where the first one did. -/
theorem newContainer_again (hlower : CommaLower) {once : Directory} {name OU : Text}
    (hous : once.ous = (create S.toEscaping .adduser true d.ous OU).1)
    (hoccupied : ∀ ou, once.occupied username ou name = d.occupied username ou name) :
    (newContainer S once username name OU).or (newContainer S d username name OU) =
      newContainer S d username name OU := by
  obtain ⟨hsame, hleft⟩ := create_again S.toEscaping .adduser hlower d.ous OU
  rw [newContainer, newContainer, hous, hsame]
  simp only [hoccupied]
  by_cases hfirst : (create S.toEscaping .adduser true d.ous OU).2 = true
  · rw [if_pos hfirst, if_pos (hleft hfirst), Option.or_none]
  · rw [if_neg hfirst]
    split
    · exact Option.none_or
    · exact Option.or_self

/-- A second change without a new name does nothing to the user of the first one. -/
theorem changeOf_again (hlower : CommaLower) (name : Option Text) :
    changeOf S v (changed S v d username r user name) username r
        (changeOf S v d username r user name user) none ∘ changeOf S v d username r user name =
      changeOf S v d username r user name := by
  have hcontainer : (newContainer S (changed S v d username r user name) username
      (name.getD user.name) (targetOU r)).or
        (newContainer S d username (name.getD user.name) (targetOU r)) =
      newContainer S d username (name.getD user.name) (targetOU r) :=
    newContainer_again hlower rfl fun ou => occupied_changed ou _
  have hname : none.getD (changeOf S v d username r user name user).name =
      name.getD user.name := rfl
  funext other
  rw [changeOf] at hname
  rw [Function.comp_apply, changeOf, changeOf, User.update_update, Option.none_or, hname,
    hcontainer]

/-- Such a change does nothing to the directory either. -/
theorem changed_again (hlower : CommaLower) (name : Option Text) :
    changed S v (changed S v d username r user name) username r
        (changeOf S v d username r user name user) none =
      changed S v d username r user name := by
  have husers : (d.modify username (changeOf S v d username r user name)).modify username
        (changeOf S v (changed S v d username r user name) username r
          (changeOf S v d username r user name user) none) =
      d.modify username (changeOf S v d username r user name) := by
    rw [modify_modify, changeOf_again hlower]
    exact fun _ => rfl
  obtain ⟨hous, -⟩ := create_again S.toEscaping .adduser hlower d.ous (targetOU r)
  refine congrArg₂ Directory.mk ?_ hous
  have h := congrArg Directory.users husers
  exact h

/-- With a settled name the change of a user is a fixed point. -/
theorem changeUser_again (hlower : CommaLower) (hfound : d.getADUser username = some user)
    (hsettled : NameSettled d user (v.sname r)) :
    changeUser S v (changeUser S v d username r) username r = changeUser S v d username r := by
  cases hname : newName d username user (v.sname r) with
  | none =>
    have hstop : changeUser S v d username r = d := by
      rw [changeUser_eq S hfound, hname]
    rw [hstop, hstop]
  | some name =>
    obtain ⟨hown, hsome⟩ := eqIgnoreCase_of_newName hsettled hfound hname
    have honce : changeUser S v d username r = changed S v d username r user name := by
      rw [changeUser_eq S hfound, hname]
    have hname' : newName (changed S v d username r user name) username
        (changeOf S v d username r user name user) (v.sname r) = some none :=
      newName_of_eq hown hsome
    rw [honce, changeUser_eq S (getADUser_changed S v r name hfound), hname']
    exact changed_again hlower name

/-! ## Where it is none -/

variable (d username user) in
/-- A plain name without wildcards stops nothing; the new name is one that nobody has. -/
theorem newName_of_plain (hplain : ∀ c ∈ sname, Wildcard.isSpecial c = false) :
    ∃ name, newName d username user sname = some name ∧
      (name = none → eqIgnoreCase user.name sname = true) ∧
      ∀ chName, name = some chName → taken d.names chName = false ∧
        ∃ k, chName = underscored sname k ∧
          (k = 0 → ∀ name ∈ d.names, like name sname = false) := by
  have hsome : (Wildcard.parse sname).isSome := by
    rw [Wildcard.parse_literal hplain]
    rfl
  obtain ⟨k, hreturned, hend, -⟩ := uniqueName_eq d sname hsome
  have hfree : taken d.names (underscored sname k) = false := by
    simp only [like_literal (plain_underscored hplain k)] at hend
    exact hend
  have hoccupied : ∀ ou, d.occupied username ou (underscored sname k) = false := by
    intro ou
    rw [Directory.occupied, List.any_eq_false]
    intro other hother htaken
    refine List.any_eq_false.mp hfree other.name (List.mem_map_of_mem hother) ?_
    exact (Bool.and_eq_true_iff.mp htaken).2
  by_cases hown : eqIgnoreCase user.name sname = true
  · refine ⟨none, newName_of_eq hown hsome, fun _ => hown, fun chName h => ?_⟩
    cases h
  · refine ⟨some (underscored sname k), ?_, fun h => absurd h (Option.some_ne_none _), ?_⟩
    · rw [newName, hreturned]
      dsimp only
      rw [if_neg hown, hoccupied]
      rfl
    · rintro chName h
      obtain rfl := Option.some.inj h
      refine ⟨hfree, k, rfl, ?_⟩
      rintro rfl name hname
      rw [underscored, List.replicate_zero, List.append_nil] at hend
      exact Bool.eq_false_iff.mpr (List.any_eq_false.mp hend name hname)

/-- Underscores make another name. -/
theorem eq_zero_of_eqIgnoreCase {k : Nat} (h : eqIgnoreCase (underscored sname k) sname = true) :
    k = 0 := by
  have hlength := congrArg List.length (eqIgnoreCase_iff.mp h)
  simp only [toLower, underscored, List.length_map, List.length_append, List.length_replicate]
    at hlength
  omega

/-- If a second change leaves everything, it writes the same values, and under the same plain
name the name of the user is settled. -/
theorem settled_of_changeUser_again {w : Variables} (hfound : d.getADUser username = some user)
    (hplain : ∀ c ∈ v.sname r, Wildcard.isSpecial c = false)
    (hplain' : ∀ c ∈ w.sname r, Wildcard.isSpecial c = false)
    (h : changeUser S w (changeUser S v d username r) username r = changeUser S v d username r) :
    w.attributes r = v.attributes r ∧
      (w.sname r = v.sname r → NameSettled d user (v.sname r)) := by
  obtain ⟨name, hname, hkept, hnew⟩ :=
    newName_of_plain d user username hplain
  have honce : changeUser S v d username r = changed S v d username r user name := by
    rw [changeUser_eq S hfound, hname]
  rw [honce] at h
  have hfound' := getADUser_changed S v r name hfound
  obtain ⟨name', hname', hkept', hnew'⟩ :=
    newName_of_plain (changed S v d username r user name)
      (changeOf S v d username r user name user) username hplain'
  rw [changeUser_eq S hfound', hname'] at h
  have htwice := getADUser_changed S w r name' hfound'
  dsimp only at h
  rw [h, hfound', Option.some.injEq] at htwice
  refine ⟨(congrArg User.attributes htwice).symm, fun hsame => ?_⟩
  have hnames : (changeOf S v d username r user name user).name =
      name'.getD (changeOf S v d username r user name user).name := congrArg User.name htwice
  by_cases hown : eqIgnoreCase user.name (v.sname r) = true
  · exact Or.inr (Or.inl hown)
  · cases name with
    | none => exact absurd (hkept rfl) hown
    | some chName =>
      obtain ⟨-, k, rfl, hzero⟩ := hnew chName rfl
      refine Or.inr (Or.inr (hzero ?_))
      cases name' with
      | none =>
        have hplainName := hkept' rfl
        rw [hsame] at hplainName
        exact eq_zero_of_eqIgnoreCase hplainName
      | some chName' =>
        -- the second name is not the first one, which the user has now
        obtain ⟨hfree, -⟩ := hnew' chName' rfl
        have hmem := mem_names hfound'
        rw [hnames, Option.getD_some] at hmem
        exact absurd (eqIgnoreCase_self chName') (List.any_eq_false.mp hfree chName' hmem)

/-- The name of the second processing has no other letters. -/
theorem plain_sname_reset (h : ∀ c ∈ (v.assign r).sname r, Wildcard.isSpecial c = false) :
    ∀ c ∈ ((v.assign r).reset.assign r).sname r, Wildcard.isSpecial c = false := by
  intro c hc
  apply h c
  have hfirst : ((v.assign r).reset.assign r).firstname = capitalise (r .surname) := Option.or_none
  cases hcapital : capitalise (r .surname) with
  | some firstname =>
    have hsame : (v.assign r).firstname = some firstname := by
      rw [Variables.assign, hcapital, Option.some_or]
    rw [Variables.sname, hfirst, hcapital] at hc
    rwa [Variables.sname, hsame]
  | none =>
    rw [Variables.sname, hfirst, hcapital] at hc
    rw [Variables.sname]
    refine List.mem_append_right _ ?_
    rcases List.mem_cons.mp hc with rfl | hc
    · exact List.mem_cons_self
    · refine List.mem_cons_of_mem _ ?_
      rw [lastname] at hc ⊢
      split_ifs at hc ⊢
      · cases hc
      · exact hc

/-- The user is still found behind the change. -/
theorem exists_getADUser_changeUser (hfound : d.getADUser username = some user) :
    ∃ user', (changeUser S v d username r).getADUser username = some user' := by
  rw [changeUser_eq S hfound]
  cases newName d username user (v.sname r) with
  | none => exact ⟨user, hfound⟩
  | some name => exact ⟨_, getADUser_changed S v r name hfound⟩

/-- A row that is not skipped is idempotent if a second change leaves everything. -/
theorem idempotent_iff_changeUser (hname : (v.assign r).username = some username)
    (husable : usable username = true) (hactive : isInactive r = false)
    (hfound : d.getADUser username = some user) :
    Idempotent S v d r ↔
      changeUser S ((v.assign r).reset.assign r) (changeUser S (v.assign r) d username r)
        username r = changeUser S (v.assign r) d username r := by
  have hname' : ((v.assign r).reset.assign r).username = some username := by
    have hagain : ((v.assign r).assign r).username = some username := by
      rw [assign_assign, hname]
    exact hagain
  obtain ⟨user', hfound'⟩ :=
    exists_getADUser_changeUser (S := S) (v := v.assign r) (r := r) hfound
  rw [Idempotent, synchroniseRow_of_found hname husable hactive hfound]
  dsimp only
  rw [synchroniseRow_of_found hname' husable hactive hfound']

end Process

/-- A row that changes a user is idempotent if it is settled, and where the plain name has no
wildcards only then. -/
theorem idempotent_iff_settled (hlower : CommaLower) {v : Variables} {d : Directory} {r : Record}
    {user : User} (hactive : isInactive r = false)
    (hfound : d.getADUser ((v.assign r).username.getD []) = some user) :
    (Settled v d r user → Idempotent S v d r) ∧
      ((∀ c ∈ (v.assign r).sname r, Wildcard.isSpecial c = false) →
        (Idempotent S v d r ↔ Settled v d r user)) := by
  by_cases hskip : (v.assign r).username.any usable = false
  · have hskip' : ((v.assign r).assign r).username.any usable = false := by
      rw [assign_assign, hskip]
    have hidempotent : Idempotent S v d r := by
      simp only [Idempotent, synchroniseRow_of_skipped hskip, synchroniseRow_of_skipped hskip']
    exact ⟨fun _ => hidempotent, fun _ => iff_of_true hidempotent (Or.inl hskip)⟩
  · rw [Bool.not_eq_false, Option.any_eq_true] at hskip
    obtain ⟨username, hname, husable⟩ := hskip
    rw [hname, Option.getD_some] at hfound
    have hiff := idempotent_iff_changeUser (S := S) hname husable hactive hfound
    have henough : Settled v d r user → Idempotent S v d r := by
      rintro (hskip | ⟨hvariables, hsettled⟩)
      · rw [hname, Option.any_some, husable] at hskip
        cases hskip
      · rw [hiff, (assign_reset_iff v r).mpr hvariables]
        exact changeUser_again hlower hfound hsettled
    refine ⟨henough, fun hplain => ⟨fun hidempotent => Or.inr ?_, henough⟩⟩
    obtain ⟨hattributes, hsettled⟩ := settled_of_changeUser_again hfound hplain
      (plain_sname_reset hplain) (hiff.mp hidempotent)
    have hsame : (v.assign r).reset.assign r = v.assign r := by
      rw [assign_reset_eq_iff]
      exact ⟨congrArg Attributes.givenName hattributes,
        congrArg Attributes.emailAddress hattributes⟩
    exact ⟨(assign_reset_iff v r).mp hsame, hsettled (by rw [hsame])⟩

end Twice

section Example

local instance asciiTwice : Culture := Culture.ascii

theorem commaLower_ascii : CommaLower := by
  intro c h
  change c.toLower = ',' at h
  unfold Char.toLower at h
  split at h
  · rename_i hupper
    have hval := congrArg (fun c => c.val.toNat) h
    have hlow := UInt32.le_iff_toNat_le.mp hupper.1
    have hhigh := UInt32.le_iff_toNat_le.mp hupper.2
    simp at hval hlow hhigh
    omega
  · exact h

/-- A service whose containers are the units, under their distinguished names. -/
def unitService : Service where
  toEscaping := Escaping.backslash
  container ous path := (ous.find? fun ou =>
    eqIgnoreCase (ou.distinguishedname Escaping.backslash) path).map
      (OU.distinguishedname Escaping.backslash)

/-- The row of a user named Ivanov Petr. -/
def ivanovPetr : Record := fun
  | .ipn => some "pu00001".toList
  | .surname => some "ivanov".toList
  | .name => some "petr".toList
  | .orgTextRu => some base
  | .isActive => some "True".toList
  | _ => some []

/-- The user of the row under some name, and another user. -/
def twoUsers (name other : Text) : Directory where
  users :=
    [⟨"pu00001".toList, name, base, true,
        (Variables.start.assign ivanovPetr).attributes ivanovPetr, none⟩,
      ⟨"pu00002".toList, other, base, true,
        (Variables.start.assign ivanovPetr).attributes ivanovPetr, none⟩]
  ous := [⟨"Employees".toList, "DC=moskvich,DC=ru".toList⟩]

theorem idempotent_iff_settled_ivanovPetr :
    let d := twoUsers "Ivanov Petr".toList "Sidorov Oleg".toList
    (Settled Variables.start d ivanovPetr (d.users.head (by decide)) →
        Idempotent unitService Variables.start d ivanovPetr) ∧
      ((∀ c ∈ (Variables.start.assign ivanovPetr).sname ivanovPetr, Wildcard.isSpecial c = false) →
        (Idempotent unitService Variables.start d ivanovPetr ↔
          Settled Variables.start d ivanovPetr (d.users.head (by decide)))) :=
  idempotent_iff_settled unitService commaLower_ascii rfl (by decide +kernel)

/-- Where another user has the plain name, a user gets one and two underscores in turn. -/
theorem homonym_not_idempotent :
    let d := twoUsers "Ivanov Petr_".toList "Ivanov Petr".toList
    d.names.Nodup ∧ (d.getADUser "pu00001".toList).isSome ∧ isInactive ivanovPetr = false ∧
      ¬Idempotent unitService Variables.start d ivanovPetr := by
  refine ⟨by decide +kernel, by decide +kernel, rfl, ?_⟩
  unfold Idempotent
  decide +kernel

end Example

end OpsScripts.AddUser
