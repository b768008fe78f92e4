import OpsScripts.AddUser.OrgUnits

/-!
# The units that `Create` creates

A distinguished name below the base is a list of names, the topmost first. `Create` is
right when it adds the missing units of that list, parents first, and nothing else. A
missing unit is created under its own name only if its component has no comma and is
not changed by the trimming; the pieces of an escaped comma must not lead to a unit.
-/

namespace OpsScripts.AddUser

section Right

variable [Culture] (D : Escaping) (script : Script) (inTry : Bool)

/-! ## Right calls -/

/-- The distinguished name below a path, the topmost name first. -/
def below : Text → List Text → Text
  | path, [] => path
  | path, name :: names => below (child D path name) names

/-- The units of a path that are missing, parents first. -/
def missing (ous : List OU) : Text → List Text → List OU
  | _, [] => []
  | path, name :: names =>
    (if OUsearch D ous (child D path name) then [] else [⟨name, path⟩]) ++
      missing ous (child D path name) names

/-- The units below the base: the base exists, and so does the parent of each unit. -/
structure Tree where
  ous : List OU
  base : OUsearch D ous base = true
  closed : ∀ names name, OUsearch D ous (child D (below D AddUser.base names) name) = true →
    OUsearch D ous (below D AddUser.base names) = true

/-- All units of a path exist. -/
def AllExist (ous : List OU) : Text → List Text → Prop
  | _, [] => True
  | path, name :: names =>
    OUsearch D ous (child D path name) = true ∧ AllExist ous (child D path name) names

/-- The call adds the missing units and nothing else, all units of the path exist then,
and a second call changes nothing. -/
def CreateRight (tree : Tree D) (names : List Text) : Prop :=
  let OUName := below D base names
  let ous := (create D script inTry tree.ous OUName).1
  create D script inTry tree.ous OUName = (tree.ous ++ missing D tree.ous base names, false) ∧
    AllExist D ous base names ∧ create D script inTry ous OUName = (ous, false)

/-! ## The condition -/

/-- A name that is passed on as it is. -/
def Kept (name : Text) : Prop :=
  name ≠ [] ∧ ',' ∉ D.escape name ∧ script.name (component D name) = name

/-- The pieces of an existing unit create nothing: each is found, or outside of a `try`
its creation is refused. -/
def Harmless (ous : List OU) : Text → List Text → Prop
  | _, [] => True
  | path, result :: rest =>
    (OUsearch D ous (result ++ ',' :: path) = true ∨
      (inTry = false ∧ newADOrganizationalUnit D (script.name result) path ous = none)) ∧
      Harmless ous (result ++ ',' :: path) rest

/-- Each unit of a path exists and its pieces are harmless, or its name is kept. -/
def LevelsOk (ous : List OU) : Text → List Text → Prop
  | _, [] => True
  | path, name :: names =>
    (if OUsearch D ous (child D path name) then
        Harmless D script inTry ous path ((component D name).splitOn ',').reverse
      else Kept D script name) ∧
      LevelsOk ous (child D path name) names

end Right

/-! ## Pieces of a path -/

section Pieces

variable {D : Escaping}

/-- The pieces of a path, the topmost first. -/
def pieces (D : Escaping) (names : List Text) : List Text :=
  names.flatMap fun name => ((component D name).splitOn ',').reverse

theorem pieces_cons (name : Text) (names : List Text) :
    pieces D (name :: names) = ((component D name).splitOn ',').reverse ++ pieces D names :=
  List.flatMap_cons

theorem splitOn_below (path : Text) (names : List Text) :
    (below D path names).splitOn ',' = (pieces D names).reverse ++ path.splitOn ',' := by
  induction names generalizing path with
  | nil => rfl
  | cons name names ih =>
    rw [below, ih, child, List.splitOn_append_cons_self, pieces_cons, List.reverse_append,
      List.reverse_reverse, List.append_assoc]

theorem notMem_component {name : Text} (h : ',' ∉ D.escape name) : ',' ∉ component D name := by
  rw [component, List.mem_append, not_or]
  exact ⟨by decide, h⟩

/-- The loop of `Create` runs over the pieces of the path. -/
theorem take_splitOn_below (names : List Text) :
    (((below D base names).splitOn ',').take
      (((below D base names).splitOn ',').length - 3)).reverse = pieces D names := by
  have hbase : (base.splitOn ',').length = 3 := by decide
  have hlength : ((pieces D names).reverse ++ base.splitOn ',').length - 3 =
      (pieces D names).reverse.length := by
    rw [List.length_append, hbase, Nat.add_sub_cancel]
  rw [splitOn_below, hlength, List.take_left, List.reverse_reverse]

/-- Pieces put back together. -/
def joined (path : Text) (results : List Text) : Text :=
  results.foldl (fun create result => result ++ ',' :: create) path

theorem joined_splitOn (t path : Text) :
    joined path (t.splitOn ',').reverse = t ++ ',' :: path := by
  induction t using pieces_induction ',' with
  | last t hnot =>
    rw [List.splitOn_eq_singleton hnot]
    rfl
  | cons s u hs ih =>
    rw [joined] at ih
    rw [List.splitOn_append_cons_self, List.splitOn_eq_singleton hs, List.reverse_append, joined,
      List.foldl_append, ih, List.append_assoc]
    rfl

theorem length_le_joined (path : Text) (results : List Text) :
    path.length + results.length ≤ (joined path results).length := by
  induction results generalizing path with
  | nil => exact le_rfl
  | cons result rest ih =>
    have hle := ih (result ++ ',' :: path)
    have hcons : joined path (result :: rest) = joined (result ++ ',' :: path) rest := rfl
    rw [hcons, List.length_cons]
    rw [List.length_append, List.length_cons] at hle
    omega

/-- No character comes in by trimming. -/
theorem mem_of_mem_name {script : Script} {result : Text} {c : Char}
    (h : c ∈ script.name result) : c ∈ result := by
  have hdrop : ∀ (p : Char → Bool) (t : Text), c ∈ ((t.dropWhile p).reverse.dropWhile p).reverse →
      c ∈ t := by
    intro p t hc
    have hc' := (List.dropWhile_sublist p).subset (List.mem_reverse.mp hc)
    exact (List.dropWhile_sublist p).subset (List.mem_reverse.mp hc')
  cases script with
  | adduser => exact hdrop _ _ (hdrop _ _ h)
  | functionCreateOU => exact hdrop _ _ h

end Pieces

/-! ## Levels that exist -/

section Levels

variable [Culture] {D : Escaping} {script : Script} {inTry : Bool} {ous : List OU}

/-- On an existing level nothing may be created: what comes later lies deeper. -/
theorem createLoop_append_iff {results more : List Text} {path : Text} {new : List OU}
    (hnew : ∀ ou ∈ new, (joined path results).length ≤ ou.path.length) :
    createLoop D script inTry (results ++ more) ous path = (ous ++ new, false) ↔
      Harmless D script inTry ous path results ∧
        createLoop D script inTry more ous (joined path results) = (ous ++ new, false) := by
  induction results generalizing path with
  | nil =>
    simp only [List.nil_append, Harmless, true_and]
    rfl
  | cons result rest ih =>
    have ih := @ih (result ++ ',' :: path) hnew
    by_cases hfound : OUsearch D ous (result ++ ',' :: path) = true
    · rw [List.cons_append, createLoop_of_found _ hfound, ih, Harmless]
      simp only [hfound, true_or, true_and]
      rfl
    · cases hcreate : newADOrganizationalUnit D (script.name result) path ous with
      | some ous' =>
        refine iff_of_false (fun hrun => ?_) (fun h => ?_)
        · rw [List.cons_append, createLoop_of_some _ hfound hcreate,
            newADOrganizationalUnit_eq_some hcreate] at hrun
          obtain ⟨later, hlater, -⟩ := exists_createLoop D script inTry (rest ++ more)
            (ous ++ [⟨script.name result, path⟩])
            (result ++ ',' :: path)
          rw [hrun, List.append_assoc, List.append_cancel_left_eq] at hlater
          have hmem : ⟨script.name result, path⟩ ∈ new := hlater ▸ List.mem_cons_self
          have hlength := hnew _ hmem
          have hjoined := length_le_joined path (result :: rest)
          rw [List.length_cons] at hjoined
          dsimp only at hlength
          omega
        · rcases h.1.1 with h | ⟨-, h⟩
          · exact hfound h
          · rw [hcreate] at h
            cases h
      | none =>
        rw [List.cons_append, createLoop_of_none _ hfound hcreate, Harmless]
        cases inTry with
        | false =>
          simp only [Bool.false_eq_true, if_false, ih, hfound, hcreate, true_and, and_self,
            or_true]
          rfl
        | true =>
          refine iff_of_false (fun hrun => ?_) (fun h => ?_)
          · have hleft : true = false := (Prod.mk.inj hrun).2
            cases hleft
          · rcases h.1.1 with h | ⟨h, -⟩
            · exact hfound h
            · cases h

/-- The missing units of a path lie at it or below it. -/
theorem length_le_of_mem_missing {path : Text} {names : List Text} {ou : OU}
    (h : ou ∈ missing D ous path names) : path.length ≤ ou.path.length := by
  induction names generalizing path with
  | nil => cases h
  | cons name names ih =>
    rw [missing, List.mem_append] at h
    rcases h with h | h
    · split_ifs at h
      · cases h
      · rw [List.mem_singleton.mp h]
    · exact (length_lt_child (D := D) path name).le.trans (ih h)

/-! ## Levels that are missing -/

/-- No unit of a path exists. -/
def NoneExist (D : Escaping) (ous : List OU) : Text → List Text → Prop
  | _, [] => True
  | path, name :: names =>
    OUsearch D ous (child D path name) = false ∧ NoneExist D ous (child D path name) names

/-- A unit above a path is none of its units. -/
theorem NoneExist.append {path path' name : Text} {names : List Text}
    (h : NoneExist D ous path names) (hpath : (child D path' name).length ≤ path.length) :
    NoneExist D (ous ++ [⟨name, path'⟩]) path names ∧
      missing D (ous ++ [⟨name, path'⟩]) path names = missing D ous path names := by
  induction names generalizing path with
  | nil => exact ⟨trivial, rfl⟩
  | cons first names ih =>
    have hlt := length_lt_child (D := D) path first
    have hsearch : OUsearch D (ous ++ [⟨name, path'⟩]) (child D path first) =
        OUsearch D ous (child D path first) :=
      OUsearch_new_of_length (by omega)
    obtain ⟨hnone, hmissing⟩ := ih h.2 (hpath.trans hlt.le)
    refine ⟨⟨hsearch.trans h.1, hnone⟩, ?_⟩
    rw [missing, missing, hsearch, hmissing]

/-- The first unit that is added under a path is added by the first piece. -/
theorem createLoop_cons_inv {result path name : Text} {rest : List Text} {later : List OU}
    (h : createLoop D script inTry (result :: rest) ous path =
      (ous ++ ⟨name, path⟩ :: later, false)) :
    script.name result = name ∧ name ≠ [] ∧
      createLoop D script inTry rest (ous ++ [⟨name, path⟩]) (result ++ ',' :: path) =
        (ous ++ ⟨name, path⟩ :: later, false) := by
  -- what is created behind the piece lies deeper
  have hdeeper : createLoop D script inTry rest ous (result ++ ',' :: path) ≠
      (ous ++ ⟨name, path⟩ :: later, false) := by
    intro hrun
    obtain ⟨new, hous, hpaths⟩ := exists_createLoop D script inTry rest ous
      (result ++ ',' :: path)
    rw [hrun, List.append_cancel_left_eq] at hous
    have hlength := hpaths ⟨name, path⟩ (hous ▸ List.mem_cons_self)
    rw [List.length_append, List.length_cons] at hlength
    dsimp only at hlength
    omega
  by_cases hfound : OUsearch D ous (result ++ ',' :: path) = true
  · rw [createLoop_of_found _ hfound] at h
    exact absurd h hdeeper
  · cases hcreate : newADOrganizationalUnit D (script.name result) path ous with
    | none =>
      rw [createLoop_of_none _ hfound hcreate] at h
      cases inTry with
      | false => exact absurd h hdeeper
      | true =>
        have hleft : true = false := (Prod.mk.inj h).2
        cases hleft
    | some ous' =>
      rw [createLoop_of_some _ hfound hcreate, newADOrganizationalUnit_eq_some hcreate] at h
      obtain ⟨new, hous, -⟩ := exists_createLoop D script inTry rest
        (ous ++ [⟨script.name result, path⟩]) (result ++ ',' :: path)
      rw [h, List.append_assoc, List.append_cancel_left_eq, List.singleton_append,
        List.cons.injEq, OU.mk.injEq] at hous
      have hsame : script.name result = name := hous.1.1.symm
      rw [newADOrganizationalUnit] at hcreate
      split_ifs at hcreate with hif
      rw [hsame] at h hif
      exact ⟨hsame, hif.1, h⟩

/-- A name whose unit is added first is one piece, which the script reads back. -/
theorem kept_of_createLoop {path name : Text} {names : List Text} {later : List OU}
    (h : createLoop D script inTry (pieces D (name :: names)) ous path =
      (ous ++ ⟨name, path⟩ :: later, false)) :
    Kept D script name ∧ createLoop D script inTry (pieces D names) (ous ++ [⟨name, path⟩])
      (child D path name) = (ous ++ ⟨name, path⟩ :: later, false) := by
  obtain ⟨result, rest, hresults⟩ := List.exists_cons_of_ne_nil
    (List.reverse_ne_nil_iff.mpr (List.splitOn_ne_nil ',' (component D name)))
  rw [pieces_cons, hresults, List.cons_append] at h
  obtain ⟨hsame, hne, hlater⟩ := createLoop_cons_inv h
  -- the first piece has no comma, so the name has none and there is one piece only
  have hlast : result = lastPiece ',' (component D name) := by
    have hhead := congrArg List.head? hresults
    rw [List.head?_reverse, List.head?_cons] at hhead
    rw [lastPiece, hhead, Option.getD_some]
  have hresult : ',' ∉ result := by
    rw [hlast]
    exact notMem_lastPiece ',' _
  have hcomma : ',' ∉ D.escape name := by
    intro hmem
    have hname := D.comma name hmem
    rw [← hsame] at hname
    exact hresult (mem_of_mem_name hname)
  rw [List.splitOn_eq_singleton (notMem_component hcomma), List.reverse_singleton,
    List.cons.injEq] at hresults
  obtain ⟨rfl, rfl⟩ := hresults
  exact ⟨⟨hne, hcomma, hsame⟩, hlater⟩

/-- The unit of a name that is kept is added. -/
theorem createLoop_of_kept {path name : Text} (names : List Text)
    (hpath : OUsearch D ous path = true) (hname : OUsearch D ous (child D path name) = false)
    (hkept : Kept D script name) : createLoop D script inTry (pieces D (name :: names)) ous path =
      createLoop D script inTry (pieces D names) (ous ++ [⟨name, path⟩]) (child D path name) := by
  obtain ⟨hne, hcomma, hsame⟩ := hkept
  have hcreate : newADOrganizationalUnit D (script.name (component D name)) path ous =
      some (ous ++ [⟨name, path⟩]) := by
    rw [hsame, newADOrganizationalUnit, if_pos ⟨hne, hpath, hname⟩]
  have hnot : ¬OUsearch D ous (component D name ++ ',' :: path) = true := by
    rw [← child, hname]
    exact Bool.false_ne_true
  rw [pieces_cons, List.splitOn_eq_singleton (notMem_component hcomma), List.reverse_singleton,
    List.singleton_append, createLoop_of_some _ hnot hcreate]
  rfl

/-- Where nothing exists yet, every name has to be kept. -/
theorem createLoop_missing_iff {path : Text} {names : List Text}
    (hpath : OUsearch D ous path = true) (hnone : NoneExist D ous path names) :
    createLoop D script inTry (pieces D names) ous path =
        (ous ++ missing D ous path names, false) ↔ ∀ name ∈ names, Kept D script name := by
  induction names generalizing path ous with
  | nil =>
    refine iff_of_true ?_ fun _ h => absurd h List.not_mem_nil
    rw [missing, List.append_nil]
    rfl
  | cons name names ih =>
    obtain ⟨hname, hnames⟩ := hnone
    have hmissing : missing D ous path (name :: names) =
        ⟨name, path⟩ :: missing D ous (child D path name) names := by
      rw [missing, if_neg (by rw [hname]; exact Bool.false_ne_true), List.singleton_append]
    obtain ⟨hnames', hmissing'⟩ := hnames.append le_rfl
    have ih := ih (OUsearch_new ous path name) hnames'
    rw [hmissing', List.append_assoc, List.singleton_append] at ih
    rw [hmissing, List.forall_mem_cons]
    constructor
    · intro hrun
      obtain ⟨hkept, hlater⟩ := kept_of_createLoop hrun
      exact ⟨hkept, ih.mp hlater⟩
    · rintro ⟨hkept, hrest⟩
      rw [createLoop_of_kept names hpath hname hkept]
      exact ih.mpr hrest

/-- Below a unit that is missing nothing exists. -/
theorem noneExist_of_closed {path : Text} {names : List Text}
    (hclosed : ∀ names name, OUsearch D ous (child D (below D path names) name) = true →
      OUsearch D ous (below D path names) = true)
    (hpath : OUsearch D ous path = false) : NoneExist D ous path names := by
  induction names generalizing path with
  | nil => trivial
  | cons name names ih =>
    have hname : OUsearch D ous (child D path name) = false := by
      rw [← Bool.not_eq_true] at hpath ⊢
      exact fun h => hpath (hclosed [] name h)
    exact ⟨hname, ih (fun names' => hclosed (name :: names')) hname⟩

theorem kept_iff_levelsOk {path : Text} {names : List Text} (h : NoneExist D ous path names) :
    (∀ name ∈ names, Kept D script name) ↔ LevelsOk D script inTry ous path names := by
  induction names generalizing path with
  | nil => simp [LevelsOk]
  | cons name names ih =>
    rw [List.forall_mem_cons, LevelsOk, h.1, ih h.2]
    simp only [Bool.false_eq_true, if_false]

/-- The loop adds the missing units exactly when all levels of the path are in order. -/
theorem createLoop_iff {path : Text} {names : List Text}
    (hclosed : ∀ names name, OUsearch D ous (child D (below D path names) name) = true →
      OUsearch D ous (below D path names) = true)
    (hpath : OUsearch D ous path = true) :
    createLoop D script inTry (pieces D names) ous path =
        (ous ++ missing D ous path names, false) ↔ LevelsOk D script inTry ous path names := by
  induction names generalizing path with
  | nil =>
    refine iff_of_true ?_ trivial
    rw [missing, List.append_nil]
    rfl
  | cons name names ih =>
    cases hname : OUsearch D ous (child D path name) with
    | true =>
      have hjoined : joined path ((component D name).splitOn ',').reverse = child D path name :=
        joined_splitOn _ _
      have hmissing : missing D ous path (name :: names) =
          missing D ous (child D path name) names := by
        rw [missing, if_pos hname, List.nil_append]
      rw [pieces_cons, hmissing, createLoop_append_iff, hjoined,
        ih (fun names' => hclosed (name :: names')) hname, LevelsOk, if_pos hname]
      intro ou hou
      rw [hjoined]
      exact length_le_of_mem_missing hou
    | false =>
      have hnone : NoneExist D ous path (name :: names) :=
        ⟨hname, noneExist_of_closed (fun names' => hclosed (name :: names')) hname⟩
      rw [createLoop_missing_iff hpath hnone, kept_iff_levelsOk hnone]

end Levels

/-! ## The whole call -/

section Call

variable [Culture] {D : Escaping} {script : Script} {inTry : Bool}

omit [Culture] in
theorem below_concat (path name : Text) (names : List Text) :
    below D path (names ++ [name]) = child D (below D path names) name := by
  induction names generalizing path with
  | nil => rfl
  | cons first names ih => exact ih (child D path first)

/-- With the unit of a path all units above it exist, and so does the start. -/
theorem exists_of_below {ous : List OU} {path : Text}
    (hclosed : ∀ names name, OUsearch D ous (child D (below D path names) name) = true →
      OUsearch D ous (below D path names) = true) {names : List Text}
    (h : OUsearch D ous (below D path names) = true) : OUsearch D ous path = true := by
  induction names using List.reverseRecOn with
  | nil => exact h
  | append_singleton names name ih =>
    rw [below_concat] at h
    exact ih (hclosed names name h)

theorem missing_eq_nil {ous : List OU} {path : Text}
    (hclosed : ∀ names name, OUsearch D ous (child D (below D path names) name) = true →
      OUsearch D ous (below D path names) = true) {names : List Text}
    (h : OUsearch D ous (below D path names) = true) : missing D ous path names = [] := by
  induction names generalizing path with
  | nil => rfl
  | cons name names ih =>
    have hclosed' := fun names' => hclosed (name :: names')
    have hname : OUsearch D ous (child D path name) = true := exists_of_below hclosed' h
    rw [missing, if_pos hname, List.nil_append, ih hclosed' h]

/-- With the missing units all units of the path exist. -/
theorem allExist_append_missing (ous : List OU) (path : Text) (names : List Text)
    (more : List OU) : AllExist D (ous ++ more ++ missing D ous path names) path names := by
  induction names generalizing path more with
  | nil => trivial
  | cons name names ih =>
    cases hname : OUsearch D ous (child D path name) with
    | true =>
      rw [missing, if_pos hname, List.nil_append]
      refine ⟨?_, ih (child D path name) more⟩
      rw [OUsearch_append, OUsearch_append, hname, Bool.true_or, Bool.true_or]
    | false =>
      rw [missing, if_neg (by rw [hname]; exact Bool.false_ne_true), ← List.append_assoc]
      refine ⟨?_, ?_⟩
      · rw [OUsearch_append, OUsearch_append, OUsearch_singleton, OU.distinguishedname,
          eqIgnoreCase_self, Bool.or_true, Bool.true_or]
      · rw [List.append_assoc ous more]
        exact ih (child D path name) (more ++ [⟨name, path⟩])

theorem AllExist.below {ous : List OU} {path : Text} {names : List Text}
    (h : AllExist D ous path names) (hpath : OUsearch D ous path = true) :
    OUsearch D ous (below D path names) = true := by
  induction names generalizing path with
  | nil => exact hpath
  | cons name names ih => exact ih h.2 h.1

/-- A call that adds the missing units is right. -/
theorem createRight_iff_create (tree : Tree D) (names : List Text) :
    CreateRight D script inTry tree names ↔ create D script inTry tree.ous (below D base names) =
      (tree.ous ++ missing D tree.ous base names, false) := by
  refine ⟨And.left, fun h => ⟨h, ?_⟩⟩
  have hall : AllExist D (tree.ous ++ missing D tree.ous base names) base names := by
    have hall := allExist_append_missing (D := D) tree.ous base names []
    rwa [List.append_nil] at hall
  rw [h]
  refine ⟨hall, ?_⟩
  have hbase : OUsearch D (tree.ous ++ missing D tree.ous base names) base = true := by
    rw [OUsearch_append, tree.base, Bool.true_or]
  rw [create, if_pos (hall.below hbase)]

/-- `Create` is right for a unit that exists, and for a path whose levels are in order. -/
theorem createRight_iff (D : Escaping) (script : Script) (inTry : Bool) (tree : Tree D)
    (names : List Text) : CreateRight D script inTry tree names ↔
      OUsearch D tree.ous (below D base names) = true ∨
        LevelsOk D script inTry tree.ous base names := by
  rw [createRight_iff_create, create]
  cases hfound : OUsearch D tree.ous (below D base names) with
  | true =>
    refine iff_of_true ?_ (Or.inl rfl)
    rw [if_pos rfl, missing_eq_nil tree.closed hfound, List.append_nil]
  | false =>
    rw [if_neg Bool.false_ne_true]
    dsimp only
    rw [take_splitOn_below, createLoop_iff tree.closed tree.base]
    simp only [Bool.false_eq_true, false_or]

end Call

/-! ## Names that are kept -/

section Names

variable {D : Escaping}

/-- An ordinary name is kept if neither of its ends is one of the three letters or blank. -/
theorem kept_of_ordinary (script : Script) {name : Text} (hne : name ≠ []) (h : Ordinary name)
    (hhead : ∀ c ∈ name.head?, "OU=".toList.contains c = false ∧ isSpace c = false)
    (hlast : ∀ c ∈ name.getLast?, "OU=".toList.contains c = false ∧ isSpace c = false) :
    Kept D script name := by
  have hescape : D.escape name = name := D.ordinary name h
  have htrim : trimOU (component D name) = name := by
    have hdrop : (component D name).dropWhile (fun c => "OU=".toList.contains c) =
        name.dropWhile fun c => "OU=".toList.contains c := by
      rw [component, hescape]
      rfl
    simp only [trimOU]
    rw [hdrop]
    exact trim_ends (fun c hc => (hhead c hc).1) fun c hc => (hlast c hc).1
  refine ⟨hne, ?_, ?_⟩
  · rw [hescape]
    intro hcomma
    have hreserved := h.1 ',' hcomma
    cases hreserved
  · cases script with
    | adduser =>
      rw [Script.name, htrim]
      exact trim_ends (fun c hc => (hhead c hc).2) fun c hc => (hlast c hc).2
    | functionCreateOU => rw [Script.name, htrim]

end Names

section Example

local instance asciiUnits : Culture := Culture.ascii

/-- Nothing but the base. -/
def onlyBase : Tree Escaping.backslash where
  ous := [⟨"Employees".toList, "DC=moskvich,DC=ru".toList⟩]
  base := by decide +kernel
  closed := by
    intro names name h
    rw [OUsearch_singleton, eqIgnoreCase_iff] at h
    have hlength := congrArg List.length h
    have hlong : ∀ (names : List Text) (path : Text),
        path.length ≤ (below Escaping.backslash path names).length := by
      intro names
      induction names with
      | nil => exact fun _ => le_rfl
      | cons name names ih =>
        exact fun path => (length_lt_child path name).le.trans (ih _)
    have hbase := hlong names base
    have hchild := length_lt_child (D := Escaping.backslash)
      (below Escaping.backslash base names) name
    have heq : (OU.distinguishedname Escaping.backslash
        ⟨"Employees".toList, "DC=moskvich,DC=ru".toList⟩).length = base.length := by
      decide +kernel
    rw [toLower, toLower, List.length_map, List.length_map, heq] at hlength
    omega

/-- The unit `UAZ` is created under the name `AZ`. -/
theorem UAZ_not_createRight : ¬CreateRight Escaping.backslash .adduser false onlyBase
    ["UAZ".toList] := by
  rw [createRight_iff_create]
  decide +kernel

end Example

end OpsScripts.AddUser
