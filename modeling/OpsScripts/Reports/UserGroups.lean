import OpsScripts.Reports.Identifiers
import Mathlib.Data.List.Nodup

/-!
# `UsersInGroups.ps1`

For each row of a list of users, the groups with the user as a member are printed. The variables
`$Sid` and `$DistinguishedName` are assigned if the user is found; otherwise they keep what the
rows before have left in them, so a block depends on the last user that was found. A group is
printed by a piece of its distinguished name, which is not its name if this is escaped there.
-/

namespace OpsScripts.Reports

/-! ## The directory -/

/-- What the script uses of a user. -/
structure Account where
  Sid : Sid
  DistinguishedName : Text

/-- A row of the list. -/
structure UserRow where
  USER : Text
  DOMAIN : Text
  deriving DecidableEq

/-- The users of all domains and the groups of the own one. A name in `Members` belongs to a
user, a group or a foreign security principal. -/
structure GroupDirectory where
  /-- `Get-ADUser -Server -Identity`, an error for an unknown user. -/
  account : Text → Text → Option Account
  /-- `Get-ADGroup -Filter *`. -/
  groups : List Text
  Members : Text → List Text
  /-- The identifier of a foreign security principal. -/
  foreign : Text → Option Sid
  groups_nodup : groups.Nodup
  members_nodup : ∀ g, (Members g).Nodup
  /-- The identifier is the name of the principal, behind which a mark of a conflict can stand. -/
  foreign_dn : ∀ dn sid, foreign dn = some sid → ∃ tail, dn = "CN=".toList ++ (sid.text ++ tail) ∧
    (tail.head? = some '\\' ∨ ",CN=".toList <+: tail)

/-! ## The report -/

/-- `Split(",")[0].Split("=")[-1]`. -/
def leaf (dn : Text) : Text := lastPiece '=' ((dn.splitOn ',').headD [])

/-- The variables that a row hands over to the next one; they are `$null` in the beginning. -/
structure Vars where
  Sid : Option Text
  DistinguishedName : Option Text

/-- Nothing is assigned yet. -/
def Vars.start : Vars := ⟨none, none⟩

/-- What is printed for a row. -/
structure RowBlock where
  header : Text
  lines : List Text
  deriving DecidableEq

section Report

variable [Culture] (d : GroupDirectory)

/-- The two assignments, each made only if the user is found. -/
def Vars.assign (vars : Vars) (row : UserRow) : Vars where
  Sid := ((d.account row.DOMAIN row.USER).map fun a => a.Sid.text).or vars.Sid
  DistinguishedName :=
    ((d.account row.DOMAIN row.USER).map fun a => a.DistinguishedName).or vars.DistinguishedName

omit [Culture] in
/-- `"\n$domain/$user|$Sid"`. -/
def Vars.header (vars : Vars) (row : UserRow) : Text :=
  '\n' :: (row.DOMAIN ++ '/' :: (row.USER ++ '|' :: vars.Sid.getD []))

/-- The two tests of the inner loop. As a pattern `$null` is empty; it is equal to no member. -/
def Vars.lines (vars : Vars) (Group member : Text) : List Text :=
  if like (leaf member) (vars.Sid.getD []) then [leaf Group]
  else if vars.DistinguishedName.any (eqIgnoreCase member) then [leaf Group]
  else []

/-- `$Groups`: the groups that have members. -/
def GroupDirectory.Groups : List Text := d.groups.filter fun g => 0 < (d.Members g).length

/-- The block of a row under the variables that hold for it. -/
def Vars.block (vars : Vars) (row : UserRow) : RowBlock where
  header := vars.header row
  lines := d.Groups.flatMap fun Group => (d.Members Group).flatMap (vars.lines Group)

/-- The pipeline over the rows. -/
def blocksFrom (vars : Vars) : List UserRow → List RowBlock
  | [] => []
  | row :: rows =>
    let vars := vars.assign d row
    vars.block d row :: blocksFrom vars rows

/-- The blocks of the report. -/
def usersInGroups (rows : List UserRow) : List RowBlock := blocksFrom d .start rows

end Report

/-! ## What the report is for -/

/-- The value of a hexadecimal digit. -/
def hexValue (c : Char) : Option Nat := "0123456789abcdef".toList.idxOf? c.toLower

/-- The value up to the first comma that is not escaped. A backslash stands in front of an
escaped letter, or of the two digits of a control character. -/
def rdnValue : Text → Text
  | '\\' :: a :: b :: t =>
    match hexValue a, hexValue b with
    | some x, some y => Char.ofNat (16 * x + y) :: rdnValue t
    | _, _ => a :: rdnValue (b :: t)
  | '\\' :: t => t
  | c :: t => if c = ',' then [] else c :: rdnValue t
  | [] => []

/-- The common name in a distinguished name. -/
def commonName (dn : Text) : Text := rdnValue (dn.dropWhile fun c => c != '=').tail

section Purpose

variable [Culture] (d : GroupDirectory)

/-- The group has the user as a member, by the name or by the identifier. -/
def GroupDirectory.Contains (a : Account) (g : Text) : Prop :=
  ∃ member ∈ d.Members g,
    toLower member = toLower a.DistinguishedName ∨ d.foreign member = some a.Sid

/-- The groups that belong into the block of a row. -/
def GroupDirectory.Belongs (row : UserRow) (g : Text) : Prop :=
  g ∈ d.groups ∧ ∃ a, d.account row.DOMAIN row.USER = some a ∧ d.Contains a g

/-- The block of each row has the names of the groups that belong to the row, each once, and is
the block that is printed for this row alone. -/
def ListsGroups (rows : List UserRow) : Prop :=
  ∀ earlier row later, rows = earlier ++ row :: later →
    ∃ b, (usersInGroups d rows)[earlier.length]? = some b ∧ usersInGroups d [row] = [b] ∧
      ∃ gs : List Text, gs.Nodup ∧ (∀ g, g ∈ gs ↔ d.Belongs row g) ∧
        b.lines = gs.map commonName

/-! ## When it lists them -/

/-- A member that the tests take for a user. -/
def Account.Fits (a : Account) (member : Text) : Prop :=
  toLower (leaf member) = toLower a.Sid.text ∨ toLower member = toLower a.DistinguishedName

/-- The user that was found last. -/
def GroupDirectory.lastAccount (rows : List UserRow) : Option Account :=
  (rows.filterMap fun row => d.account row.DOMAIN row.USER).getLast?

/-- In the groups with the user exactly one member is taken for the user, in the others none;
the groups with the user are printed by their names. -/
def GroupDirectory.SeenOnce (a : Account) : Prop :=
  ∀ g ∈ d.groups,
    (d.Contains a g →
      (∃! member, member ∈ d.Members g ∧ a.Fits member) ∧ leaf g = commonName g) ∧
    (¬d.Contains a g → ∀ member ∈ d.Members g, ¬a.Fits member)

/-- The users of the list are told apart from the other members. A user that is not found stands
before all that are found, and no member is taken for `$null`. -/
def GroupDirectory.Clear (rows : List UserRow) : Prop :=
  ∀ earlier row later, rows = earlier ++ row :: later →
    match d.account row.DOMAIN row.USER with
    | some a => d.SeenOnce a
    | none => d.lastAccount earlier = none ∧
        ∀ g ∈ d.groups, ∀ member ∈ d.Members g, leaf member ≠ []

/-- No group is printed by the name of another one. -/
def GroupDirectory.Apart : Prop :=
  ∀ g ∈ d.groups, ∀ g' ∈ d.groups, leaf g = commonName g' → g = g'

end Purpose

/-! ## Names that are printed -/

theorem rdnValue_append {n : Text} (hcomma : ',' ∉ n) (hslash : '\\' ∉ n) (rest : Text) :
    rdnValue (n ++ ',' :: rest) = n := by
  induction n with
  | nil => rfl
  | cons c n ih =>
    rw [List.mem_cons, not_or] at hcomma hslash
    have hcons : rdnValue (c :: (n ++ ',' :: rest)) =
        if c = ',' then [] else c :: rdnValue (n ++ ',' :: rest) := by
      rw [rdnValue]
      · rintro a b t rfl
        exact absurd rfl hslash.1
      · rintro rfl
        exact hslash.1 rfl
    rw [List.cons_append, hcons, if_neg (Ne.symm hcomma.1), ih hcomma.2 hslash.2]

/-- Where nothing has to be escaped, the name is printed. -/
theorem leaf_eq_commonName {n : Text} (h : ∀ c ∈ n, c ≠ ',' ∧ c ≠ '=' ∧ c ≠ '\\') (rest : Text) :
    leaf ("CN=".toList ++ (n ++ ',' :: rest)) =
      commonName ("CN=".toList ++ (n ++ ',' :: rest)) := by
  have hcomma : ',' ∉ n := fun hc => (h _ hc).1 rfl
  have hequal : '=' ∉ n := fun hc => (h _ hc).2.1 rfl
  have hslash : '\\' ∉ n := fun hc => (h _ hc).2.2 rfl
  have hname : commonName ("CN=".toList ++ (n ++ ',' :: rest)) = rdnValue (n ++ ',' :: rest) := rfl
  have hfirst : ',' ∉ "CN=".toList ++ n := by
    simpa using hcomma
  have hsplit : "CN=".toList ++ n = "CN".toList ++ '=' :: n := by
    simp
  rw [hname, rdnValue_append hcomma hslash, leaf, ← List.append_assoc, headD_splitOn hfirst, hsplit,
    lastPiece_append_cons, lastPiece_of_notMem hequal]

/-- A name with an escaped comma is printed in part. -/
example : commonName "CN=Sales\\, EMEA,DC=local".toList = "Sales, EMEA".toList ∧
    leaf "CN=Sales\\, EMEA,DC=local".toList = "Sales\\".toList := by decide +kernel

/-! ## One row -/

section Row

variable [Culture] {d : GroupDirectory}

/-- A member for which one of the tests holds. -/
def Vars.takes (vars : Vars) (member : Text) : Bool :=
  like (leaf member) (vars.Sid.getD []) || vars.DistinguishedName.any (eqIgnoreCase member)

/-- The groups that are printed with the variables, one for each member that is taken. -/
def Vars.groups (vars : Vars) (d : GroupDirectory) : List Text :=
  d.Groups.flatMap fun g => ((d.Members g).filter vars.takes).map fun _ => g

/-- Both tests write the same line. -/
theorem lines_block (vars : Vars) (row : UserRow) :
    (vars.block d row).lines = (vars.groups d).map leaf := by
  have hmember : ∀ g member, vars.lines g member = if vars.takes member then [leaf g] else [] := by
    intro g member
    rw [Vars.lines, Vars.takes]
    cases like (leaf member) (vars.Sid.getD []) <;>
      cases vars.DistinguishedName.any (eqIgnoreCase member) <;> rfl
  rw [Vars.groups, Vars.block, List.map_flatMap]
  refine List.flatMap_congr fun g _ => ?_
  rw [List.map_map]
  induction d.Members g with
  | nil => rfl
  | cons member members ih =>
    rw [List.flatMap_cons, hmember, ih, List.filter_cons]
    split_ifs <;> rfl

/-- The groups with a member that is taken for the user. -/
theorem mem_groups {vars : Vars} {g : Text} :
    g ∈ vars.groups d ↔ g ∈ d.groups ∧ ∃ member ∈ d.Members g, vars.takes member := by
  simp only [Vars.groups, List.mem_flatMap, List.mem_map, List.mem_filter,
    GroupDirectory.Groups, decide_eq_true_eq]
  constructor
  · rintro ⟨g', ⟨hg, -⟩, member, ⟨hmember, htakes⟩, rfl⟩
    exact ⟨hg, member, hmember, htakes⟩
  · rintro ⟨hg, member, hmember, htakes⟩
    exact ⟨g, ⟨hg, List.length_pos_of_mem hmember⟩, member, ⟨hmember, htakes⟩, rfl⟩

/-- A group is repeated if several of its members are taken for the user. -/
theorem nodup_groups {vars : Vars} :
    (vars.groups d).Nodup ↔ ∀ g ∈ d.groups, ∀ member ∈ d.Members g,
      ∀ other ∈ d.Members g, vars.takes member → vars.takes other → member = other := by
  have hGroups : d.Groups.Pairwise (Function.onFun List.Disjoint fun g =>
      ((d.Members g).filter vars.takes).map fun _ => g) := by
    refine (d.groups_nodup.filter _).imp fun {g g'} hne => ?_
    rintro x hx hx'
    obtain ⟨-, -, rfl⟩ := List.mem_map.mp hx
    obtain ⟨-, -, rfl⟩ := List.mem_map.mp hx'
    exact hne rfl
  rw [Vars.groups, List.nodup_flatMap, and_iff_left hGroups]
  constructor
  · intro h g hg member hmember other hother htakes htakes'
    have hpos : 0 < (d.Members g).length := List.length_pos_of_mem hmember
    have hnodup := h g (List.mem_filter.mpr ⟨hg, decide_eq_true hpos⟩)
    exact List.inj_on_of_nodup_map hnodup (List.mem_filter.mpr ⟨hmember, htakes⟩)
      (List.mem_filter.mpr ⟨hother, htakes'⟩) rfl
  · intro h g hg
    refine List.Nodup.map_on ?_ ((d.members_nodup g).filter _)
    intro member hmember other hother _
    obtain ⟨hmember, htakes⟩ := List.mem_filter.mp hmember
    obtain ⟨hother, htakes'⟩ := List.mem_filter.mp hother
    exact h g (List.mem_filter.mp hg).1 member hmember other hother htakes htakes'

/-- The groups that are printed are those in which exactly one member is taken for the user, if
there are no others. -/
theorem groups_exact_iff {vars : Vars} {P : Text → Prop} (hP : ∀ g, P g → g ∈ d.groups) :
    (vars.groups d).Nodup ∧ (∀ g, g ∈ vars.groups d ↔ P g) ↔
      ∀ g ∈ d.groups, (P g → ∃! member, member ∈ d.Members g ∧ vars.takes member) ∧
        (¬P g → ∀ member ∈ d.Members g, ¬vars.takes member) := by
  simp only [nodup_groups, mem_groups]
  constructor
  · rintro ⟨hone, hgroups⟩ g hg
    constructor
    · intro hPg
      obtain ⟨-, member, hmember, htakes⟩ := (hgroups g).mpr hPg
      exact ⟨member, ⟨hmember, htakes⟩,
        fun other h => hone g hg other h.1 member hmember h.2 htakes⟩
    · intro hPg member hmember htakes
      exact hPg ((hgroups g).mp ⟨hg, member, hmember, htakes⟩)
  · intro h
    constructor
    · intro g hg member hmember other hother htakes htakes'
      by_cases hPg : P g
      · exact ((h g hg).1 hPg).unique ⟨hmember, htakes⟩ ⟨hother, htakes'⟩
      · exact absurd htakes ((h g hg).2 hPg member hmember)
    · intro g
      constructor
      · rintro ⟨hg, member, hmember, htakes⟩
        by_contra hPg
        exact (h g hg).2 hPg member hmember htakes
      · intro hPg
        obtain ⟨member, ⟨hmember, htakes⟩, -⟩ := (h g (hP g hPg)).1 hPg
        exact ⟨hP g hPg, member, hmember, htakes⟩

/-- Where no group is printed by the name of another one, lines that are names are the names of
the groups that are printed. -/
theorem GroupDirectory.Apart.groups_eq (hapart : d.Apart) {vars : Vars} {gs : List Text}
    (hgs : ∀ g ∈ gs, g ∈ d.groups)
    (h : (vars.groups d).map leaf = gs.map commonName) : vars.groups d = gs := by
  have hgroups : ∀ g ∈ vars.groups d, g ∈ d.groups := fun g hg => (mem_groups.mp hg).1
  generalize vars.groups d = printed at h hgroups
  induction printed generalizing gs with
  | nil => exact (List.map_eq_nil_iff.mp h.symm).symm
  | cons g printed ih =>
    cases gs with
    | nil => cases h
    | cons g' gs =>
      rw [List.map_cons, List.map_cons, List.cons.injEq] at h
      rw [hapart g (hgroups g List.mem_cons_self) g' (hgs g' List.mem_cons_self) h.1,
        ih (fun x hx => hgs x (List.mem_cons_of_mem _ hx)) h.2
          fun x hx => hgroups x (List.mem_cons_of_mem _ hx)]

/-- The variables behind a user that was found. -/
def Account.vars (a : Account) : Vars := ⟨some a.Sid.text, some a.DistinguishedName⟩

/-- An identifier has no letters with a meaning in patterns. -/
theorem takes_vars (a : Account) (member : Text) : a.vars.takes member = true ↔ a.Fits member := by
  have hplain : ∀ c ∈ a.Sid.text, Wildcard.isSpecial c = false := by
    have hall : ∀ c ∈ ['*', '?', '[', '`'], c ∉ "S0123456789-".toList := by decide
    intro c hc
    rw [← Bool.not_eq_true]
    intro hspecial
    refine a.Sid.notMem (hall c ?_) hc
    simpa [Wildcard.isSpecial, or_assoc] using hspecial
  have hlike : like (leaf member) a.Sid.text = eqIgnoreCase (leaf member) a.Sid.text :=
    like_literal hplain _
  simp [Vars.takes, Account.vars, hlike, Account.Fits]

/-- As long as nobody was found, only a member without a name passes. -/
theorem takes_start (member : Text) : Vars.start.takes member = true ↔ leaf member = [] := by
  have hlike : like (leaf member) [] = eqIgnoreCase (leaf member) [] :=
    like_literal (fun _ hc => absurd hc List.not_mem_nil) _
  simp [Vars.takes, Vars.start, hlike, toLower]

end Row

/-! ## The whole list -/

section Run

variable [Culture] {d : GroupDirectory}

/-- The variables behind the user that was found last. -/
def varsOf : Option Account → Vars
  | some a => a.vars
  | none => .start

omit [Culture] in
/-- A row replaces the variables or leaves them. -/
theorem assign_varsOf (last : Option Account) (row : UserRow) :
    (varsOf last).assign d row = varsOf ((d.account row.DOMAIN row.USER).or last) := by
  rw [Vars.assign]
  cases d.account row.DOMAIN row.USER with
  | some a => rfl
  | none => rfl

omit [Culture] in
/-- The variables behind some rows. -/
theorem foldl_assign (rows : List UserRow) :
    rows.foldl (Vars.assign d) .start = varsOf (d.lastAccount rows) := by
  induction rows using List.reverseRecOn with
  | nil => rfl
  | append_singleton rows row ih =>
    rw [List.foldl_append, List.foldl_cons, List.foldl_nil, ih, assign_varsOf]
    congr 1
    rw [GroupDirectory.lastAccount, GroupDirectory.lastAccount, List.filterMap_append,
      List.getLast?_append]
    cases haccount : d.account row.DOMAIN row.USER <;> simp [haccount]

/-- The block of a row is printed with the variables that the rows before have left. -/
theorem getElem?_blocksFrom (vars : Vars) (earlier later : List UserRow) (row : UserRow) :
    (blocksFrom d vars (earlier ++ row :: later))[earlier.length]? =
      some (((earlier.foldl (Vars.assign d) vars).assign d row).block d row) := by
  induction earlier generalizing vars with
  | nil => rfl
  | cons row' earlier ih => exact ih (vars.assign d row')

/-- The block of a row depends on the user, or on the user that was found last. -/
theorem getElem?_usersInGroups (earlier later : List UserRow) (row : UserRow) :
    (usersInGroups d (earlier ++ row :: later))[earlier.length]? =
      some ((varsOf ((d.account row.DOMAIN row.USER).or (d.lastAccount earlier))).block d row) := by
  rw [usersInGroups, getElem?_blocksFrom, foldl_assign, assign_varsOf]

/-- What is printed for a row alone. -/
theorem usersInGroups_singleton (row : UserRow) : usersInGroups d [row] =
    [(varsOf (d.account row.DOMAIN row.USER)).block d row] := by
  have h := assign_varsOf (d := d) none row
  rw [Option.or_none] at h
  rw [usersInGroups, blocksFrom, blocksFrom]
  exact congrArg (fun vars => [Vars.block d vars row]) h

/-- What is printed for a user that is found does not depend on the other rows. -/
theorem block_of_found {row : UserRow} {a : Account}
    (ha : d.account row.DOMAIN row.USER = some a) (earlier later : List UserRow) :
    (usersInGroups d (earlier ++ row :: later))[earlier.length]? = some (a.vars.block d row) := by
  rw [getElem?_usersInGroups, ha]
  rfl

/-- A header shows whose identifier the variables hold. -/
theorem varsOf_eq_start {last : Option Account} {row : UserRow}
    (h : ((varsOf last).block d row).header = (Vars.start.block d row).header) : last = none := by
  cases last with
  | none => rfl
  | some a =>
    obtain ⟨rest, htext, -⟩ := a.Sid.form
    rw [Vars.block, Vars.block, Vars.header, Vars.header] at h
    simp [varsOf, Account.vars, Vars.start, htext] at h

/-- The names are printed for a user that is found if the user is seen once, and in no other case
if no group is printed by the name of another one. -/
theorem names_of_found_iff (a : Account) (row : UserRow) :
    (d.SeenOnce a → ∃ gs : List Text, gs.Nodup ∧ (∀ g, g ∈ gs ↔ g ∈ d.groups ∧ d.Contains a g) ∧
      (a.vars.block d row).lines = gs.map commonName) ∧
    (d.Apart → (∃ gs : List Text, gs.Nodup ∧ (∀ g, g ∈ gs ↔ g ∈ d.groups ∧ d.Contains a g) ∧
      (a.vars.block d row).lines = gs.map commonName) → d.SeenOnce a) := by
  have hgroups : ∀ g, g ∈ d.groups ∧ d.Contains a g → g ∈ d.groups := fun _ hg => hg.1
  have hexact := @groups_exact_iff _ d a.vars _ hgroups
  simp only [takes_vars] at hexact
  rw [lines_block]
  constructor
  · intro honce
    have hgroups := hexact.mpr fun g hg =>
      ⟨fun h => ((honce g hg).1 h.2).1, fun h => (honce g hg).2 fun hc => h ⟨hg, hc⟩⟩
    refine ⟨a.vars.groups d, hgroups.1, hgroups.2, List.map_congr_left fun g hg => ?_⟩
    obtain ⟨hmem, hcontains⟩ := (hgroups.2 g).mp hg
    exact ((honce g hmem).1 hcontains).2
  · rintro hapart ⟨gs, hnodup, hgs, hlines⟩ g hg
    obtain rfl := hapart.groups_eq (fun g hg => ((hgs g).mp hg).1) hlines
    have hone := hexact.mp ⟨hnodup, hgs⟩ g hg
    refine ⟨fun hc => ⟨hone.1 ⟨hg, hc⟩, ?_⟩, fun hc => hone.2 fun h => hc h.2⟩
    exact List.map_inj_left.mp hlines g ((hgs g).mpr ⟨hg, hc⟩)

/-- Nothing is printed for a user that is not found, before all that are found. -/
theorem lines_start_iff (row : UserRow) : (Vars.start.block d row).lines = [] ↔
    ∀ g ∈ d.groups, ∀ member ∈ d.Members g, leaf member ≠ [] := by
  rw [lines_block, List.map_eq_nil_iff, List.eq_nil_iff_forall_not_mem]
  simp only [mem_groups, takes_start, not_and, not_exists, ne_eq]

/-- A user that is not found belongs to no group. -/
theorem not_belongs {row : UserRow} (h : d.account row.DOMAIN row.USER = none) (g : Text) :
    ¬d.Belongs row g := by
  rintro ⟨-, a, ha, -⟩
  rw [h] at ha
  cases ha

/-- The names are listed if the users are clear, and in no other case if no group is printed by
the name of another one. -/
theorem listsGroups_iff (d : GroupDirectory) (rows : List UserRow) :
    (d.Clear rows → ListsGroups d rows) ∧ (d.Apart → ListsGroups d rows → d.Clear rows) := by
  constructor
  · rintro hclear earlier row later rfl
    have hrow := hclear earlier row later rfl
    rw [getElem?_usersInGroups, usersInGroups_singleton]
    cases haccount : d.account row.DOMAIN row.USER with
    | some a =>
      rw [haccount] at hrow
      obtain ⟨gs, hnodup, hgs, hlines⟩ := (names_of_found_iff a row).1 hrow
      refine ⟨_, rfl, rfl, gs, hnodup, fun g => ?_, hlines⟩
      rw [hgs, GroupDirectory.Belongs, haccount]
      simp
    | none =>
      rw [haccount] at hrow
      obtain ⟨hlast, hempty⟩ := hrow
      rw [hlast]
      refine ⟨_, rfl, rfl, [], List.nodup_nil, fun g => ?_, (lines_start_iff row).mpr hempty⟩
      exact iff_of_false List.not_mem_nil (not_belongs haccount g)
  · rintro hapart hlists earlier row later rfl
    obtain ⟨b, hb, halone, gs, hnodup, hgs, hlines⟩ := hlists earlier row later rfl
    rw [getElem?_usersInGroups] at hb
    rw [usersInGroups_singleton, List.cons.injEq, and_iff_left rfl] at halone
    obtain rfl := Option.some.inj hb
    cases haccount : d.account row.DOMAIN row.USER with
    | some a =>
      rw [haccount] at hlines
      refine (names_of_found_iff a row).2 hapart ⟨gs, hnodup, fun g => ?_, hlines⟩
      rw [hgs, GroupDirectory.Belongs, haccount]
      simp
    | none =>
      rw [haccount, Option.none_or] at hlines halone
      have hlast := varsOf_eq_start (congrArg RowBlock.header halone.symm)
      rw [hlast] at hlines
      refine ⟨hlast, (lines_start_iff row).mp ?_⟩
      have hgs' : gs = [] := List.eq_nil_iff_forall_not_mem.mpr fun g hg =>
        not_belongs haccount g ((hgs g).mp hg)
      rw [hgs', List.map_nil] at hlines
      exact hlines

/-- Where the groups are listed, the block of a row is the same in every list. -/
theorem blocks_independent {earlier later earlier' later' : List UserRow} {row : UserRow}
    (h : ListsGroups d (earlier ++ row :: later))
    (h' : ListsGroups d (earlier' ++ row :: later')) :
    (usersInGroups d (earlier ++ row :: later))[earlier.length]? =
      (usersInGroups d (earlier' ++ row :: later'))[earlier'.length]? := by
  obtain ⟨b, hb, halone, -⟩ := h earlier row later rfl
  obtain ⟨b', hb', halone', -⟩ := h' earlier' row later' rfl
  have heq : [b] = [b'] := halone.symm.trans halone'
  rw [hb, hb', (List.cons.inj heq).1]

end Run

section Example

local instance asciiUsers : Culture := Culture.ascii

/-- A user of the domain. -/
def petrov : Account where
  Sid := ⟨"S-1-5-21-1-2-3-1105".toList, "-1-5-21-1-2-3-1105".toList, rfl, by decide⟩
  DistinguishedName := "CN=Petrov,DC=local".toList

/-- A directory with the user in a group. -/
def petrovs : GroupDirectory where
  account := fun _ user => if user = "petrov".toList then some petrov else none
  groups := ["CN=Admins,DC=local".toList]
  Members := fun _ => [petrov.DistinguishedName]
  foreign := fun _ => none
  groups_nodup := List.nodup_singleton _
  members_nodup := fun _ => List.nodup_singleton _
  foreign_dn := fun _ _ h => nomatch h

/-- A user that is not found gets the groups of the user before. -/
theorem petrovs_not_listsGroups :
    ¬ListsGroups petrovs [⟨"petrov".toList, "hq".toList⟩, ⟨"nobody".toList, "hq".toList⟩] := by
  intro h
  obtain ⟨b, hb, -, gs, -, hgs, hlines⟩ := h [⟨"petrov".toList, "hq".toList⟩] _ [] rfl
  have hstale : ∃ b, (usersInGroups petrovs [⟨"petrov".toList, "hq".toList⟩,
      ⟨"nobody".toList, "hq".toList⟩])[1]? = some b ∧ b.lines = ["Admins".toList] := by
    decide +kernel
  obtain ⟨b', hb', hadmins⟩ := hstale
  obtain rfl : b = b' := Option.some.inj (hb.symm.trans hb')
  have hne : "nobody".toList ≠ "petrov".toList := by decide
  have hnobody : petrovs.account "hq".toList "nobody".toList = none := by
    simp only [petrovs, if_neg hne]
  have hnil : gs = [] := List.eq_nil_iff_forall_not_mem.mpr fun g hg =>
    not_belongs hnobody g ((hgs g).mp hg)
  rw [hadmins, hnil] at hlines
  cases hlines

end Example

end OpsScripts.Reports
