import OpsScripts.Reports.Identifiers

/-!
# `gruopUsers_V1.ps1` and `gruopUsers_V2.ps1`

The members of the configured groups are listed over three levels. Each level asks for a user of
the own domain, then for the domain of a security identifier, and takes everything else for a
group; only the last level prints what it does not know. An entry with an identifier that is no
user of a known domain is written nowhere.
-/

namespace OpsScripts.Reports

/-! ## The directories -/

/-- The two scripts. -/
inductive Version where
  | V1 | V2
  deriving DecidableEq

/-- What is printed of a user. -/
structure Person where
  name : Text
  EmailAddress : Text
  samaccountname : Text
  deriving DecidableEq

/-- The directory of the own domain and those of the other ones. A distinguished name belongs to
a user, a group, a foreign security principal, or something else. -/
structure Directory where
  /-- `Get-ADUser -Filter {DistinguishedName -eq $member}`. -/
  user : Text → Option Person
  /-- `(Get-ADGroup "$member" -prop *).Members`. -/
  members : Text → Option (List Text)
  /-- The identifier of a foreign security principal. -/
  foreign : Text → Option Sid
  /-- `Get-ADUser -Server -Identity`. -/
  account : Domain → Text → Option Person
  user_of_members : ∀ dn, (members dn).isSome → user dn = none
  /-- The identifier is the name of the principal, behind which a mark of a conflict can stand. -/
  foreign_dn : ∀ dn sid, foreign dn = some sid → ∃ tail, dn = "CN=".toList ++ (sid.text ++ tail) ∧
    (tail.head? = some '\\' ∨ ",CN=".toList <+: tail)
  /-- A domain has the identifiers that begin with its own one. -/
  account_sid : ∀ D (sid : Sid), (account D sid.text).isSome →
    ∃ rid, sid.text = D.sid ++ '-' :: rid

/-! ## The report -/

/-- A line of the report. -/
inductive Line where
  | group (g : Text)
  | person (server : Option Domain) (p : Person)
  | entry (t : Text)
  | opening (last : Bool) (t : Text)
  | closing (t : Text)
  deriving DecidableEq

/-- What stands between the properties of a user. -/
def separator : Version → Option Domain → Text
  | .V1, _ => "|".toList
  | .V2, none => "|action-crm\\| ".toList
  | .V2, some .actiondigital => "|dig| ".toList
  | .V2, some .amedia => "|amedia\\| ".toList
  | .V2, some .hq => "|hq\\| ".toList
  | .V2, some .actionCrm => "|action-crm\\|".toList

/-- The text of a line. -/
def Line.text (v : Version) : Line → Text
  | .group g => g ++ "|||Group".toList
  | .person server p => (separator v server).intercalate [p.name, p.EmailAddress, p.samaccountname]
  | .entry t => t
  | .opening false t => t ++ "|||1st in Group".toList
  | .opening true t => t ++ "|||2nd in Group".toList
  | .closing t => t ++ "|||END in Group".toList

/-- The entry that a line names. -/
def Line.names : Line → Option Text
  | .entry t => some t
  | .opening _ t => some t
  | .closing t => some t
  | .group _ => none
  | .person _ _ => none

/-- A line, and where the loops are when it is written: the group and the members that lead from
it to the entry. -/
structure Write where
  path : List Text
  line : Line
  deriving DecidableEq

section Report

variable [Culture] (v : Version) (d : Directory)

/-- The text that an entry which is no user goes on with: `Split("=")[1]` and `Split("\")[0]` of
an entry with an identifier. -/
def cleaned (member : Text) : Text :=
  if like member (around anySid) then
    (((member.splitOn '=')[1]?.getD []).splitOn '\\').headD []
  else member

/-- `noDefaulDomain` and its copies; `others` is what they do with an entry that has no
identifier. -/
def foreignOr (path : List Text) (others : Text → List Write) (member : Text) : List Write :=
  match domains.find? fun D => like member (around D.sid) with
  | some D =>
    (d.account D ((member.splitOn ',').headD [])).toList.map fun p => ⟨path, .person (some D) p⟩
  | none => if like member (around anySid) then [] else others member

/-- `GetUsers` and its copies; `others` is what `noDefaulDomain` does in the end. -/
def userOr (path : List Text) (others : Text → List Write) (member : Text) : List Write :=
  match d.user member with
  | some p => [⟨path, .person none p⟩]
  | none => foreignOr d path others (cleaned member)

/-- `InGroups` and its copy; in V1 the lines around the members are comments. -/
def inGroupsOf (last : Bool) (next : List Text → Text → List Write) (path : List Text)
    (member : Text) : List Write :=
  (if v = .V2 then [⟨path, .opening last member⟩] else []) ++
    (((d.members member).getD []).flatMap fun inMember => next (path ++ [inMember]) inMember) ++
      if v = .V2 then [⟨path, .closing member⟩] else []

/-- `GetInUsers2` with `InNoDefaulDomain2`: the last level prints what is left. -/
def GetInUsers2 (path : List Text) (inMember2 : Text) : List Write :=
  userOr d path (fun t => [⟨path, .entry t⟩]) inMember2

/-- `InGroups2`. -/
def InGroups2 : List Text → Text → List Write := inGroupsOf v d true (GetInUsers2 d)

/-- `GetInUsers` with `InNoDefaulDomain`. -/
def GetInUsers (path : List Text) (inMember : Text) : List Write :=
  userOr d path (InGroups2 v d path) inMember

/-- `InGroups`. -/
def InGroups : List Text → Text → List Write := inGroupsOf v d false (GetInUsers v d)

/-- `GetUsers` with `noDefaulDomain`. -/
def GetUsers (path : List Text) (member : Text) : List Write :=
  userOr d path (InGroups v d path) member

/-- The loop over the groups. Where a group is not found the members of the group before it are
still in the variable. -/
def reportFrom : List Text → List Text → List Write
  | _, [] => []
  | previous, group :: groups =>
    let members := (d.members group).getD previous
    ⟨[group], .group group⟩ ::
      ((members.flatMap fun member => GetUsers v d [group, member] member) ++
        reportFrom members groups)

/-- The report. -/
def report (groups : List Text) : List Write := reportFrom v d [] groups

/-- The lines of the file. -/
def fileLines (groups : List Text) : List Text := (report v d groups).map fun w => w.line.text v

end Report

/-! ## What the report is for -/

section Purpose

variable (d : Directory)

/-- Each entry is a member of the one before it. -/
def Chain : Text → List Text → Prop
  | _, [] => True
  | x, e :: es => (∃ ms, d.members x = some ms ∧ e ∈ ms) ∧ Chain e es

/-- A user of the own domain or of another one. -/
inductive Known (e : Text) : Line → Prop
  | own {p : Person} (h : d.user e = some p) : Known e (.person none p)
  | other {sid : Sid} {D : Domain} {p : Person} (h : d.foreign e = some sid)
    (hp : d.account D sid.text = some p) : Known e (.person (some D) p)

/-- The line that an entry needs: the line of the user, or else one that names it. -/
def Shows (e : Text) (line : Line) : Prop :=
  Known d e line ∨ (∀ other, ¬Known d e other) ∧
    ∃ t, line.names = some t ∧ (t = e ∨ ∃ sid, d.foreign e = some sid ∧ t = sid.text)

/-- A group that is listed at the next level. -/
def Opened (level : Nat) (e : Text) : Prop := level < 3 ∧ (d.members e).isSome

/-- Nobody is lost: an entry that is reached in three steps has its line where the script comes
to it, unless it is a group listed at the next level, and nothing lies deeper. -/
structure Complete [Culture] (v : Version) (groups : List Text) : Prop where
  shown : ∀ g ∈ groups, ∀ es, Chain d g es → es.length ≤ 3 → ∀ e, es.getLast? = some e →
    Opened d es.length e ∨ ∃ line, Shows d e line ∧ ⟨g :: es, line⟩ ∈ report v d groups
  bounded : ∀ w ∈ report v d groups, w.path.length ≤ 4

/-- What a text of the file says of an entry: it is the line of the user, or it begins with the
entry. -/
def Says (v : Version) (e text : Text) : Prop :=
  (∃ line, Known d e line ∧ text = line.text v) ∨ e <+: text ∨
    ∃ sid, d.foreign e = some sid ∧ sid.text <+: text

end Purpose

/-! ## Identifiers -/

section Identifiers

variable [Culture] {d : Directory}

/-- The text that a principal of a domain goes on with is its identifier. -/
theorem cleaned_of_foreign {e : Text} {sid : Sid} (h : d.foreign e = some sid)
    (hany : anySid <+: sid.text) :
    ∃ u, (u = [] ∨ u = ",CN".toList) ∧ cleaned e = sid.text ++ u := by
  obtain ⟨tail, rfl, htail⟩ := d.foreign_dn e sid h
  have hlike : like ("CN=".toList ++ (sid.text ++ tail)) (around anySid) = true := by
    obtain ⟨rid, hrid⟩ := hany
    rw [like_around_iff anySid_form, ← hrid]
    simp only [toLower_append]
    exact ⟨toLower "CN=".toList, toLower rid ++ toLower tail, by simp⟩
  have hequals : '=' ∉ sid.text := sid.notMem (by decide)
  have hslash : '\\' ∉ sid.text := sid.notMem (by decide)
  have hsecond : (("CN=".toList ++ (sid.text ++ tail)).splitOn '=')[1]?.getD [] =
      ((sid.text ++ tail).splitOn '=').headD [] := by
    have hname : '=' ∉ "CN".toList := by decide
    have hsplit : "CN=".toList ++ (sid.text ++ tail) =
        "CN".toList ++ '=' :: (sid.text ++ tail) := rfl
    rw [hsplit, List.splitOn_append_cons_self_of_not_mem hname]
    cases (sid.text ++ tail).splitOn '=' <;> rfl
  rw [cleaned, if_pos hlike, hsecond]
  rcases htail with htail | ⟨u, rfl⟩
  · obtain ⟨u, rfl⟩ : ∃ u, tail = '\\' :: u := by
      cases tail with
      | nil => cases htail
      | cons c u => exact ⟨u, by rw [Option.some.inj htail]⟩
    refine ⟨[], Or.inl rfl, ?_⟩
    rw [List.append_nil]
    rcases notMem_or_split '=' u with hnot | ⟨w, w', rfl, hw⟩
    · have hall : '=' ∉ sid.text ++ '\\' :: u := by simp [hequals, hnot]
      rw [headD_splitOn_of_notMem hall, headD_splitOn hslash]
    · have hall : '=' ∉ sid.text ++ '\\' :: w := by simp [hequals, hw]
      have hassoc : sid.text ++ '\\' :: (w ++ '=' :: w') =
          (sid.text ++ '\\' :: w) ++ '=' :: w' := by simp
      rw [hassoc, headD_splitOn hall, headD_splitOn hslash]
  · refine ⟨",CN".toList, Or.inr rfl, ?_⟩
    have hall : '=' ∉ sid.text ++ ",CN".toList := by
      rw [List.mem_append, not_or]
      exact ⟨hequals, by decide⟩
    have hnone : '\\' ∉ sid.text ++ ",CN".toList := by
      rw [List.mem_append, not_or]
      exact ⟨hslash, by decide⟩
    have hassoc : sid.text ++ (",CN=".toList ++ u) = (sid.text ++ ",CN".toList) ++ '=' :: u := by
      rw [List.append_assoc]
      rfl
    rw [hassoc, headD_splitOn hall, headD_splitOn_of_notMem hnone]

/-- A user of another domain is looked up there. -/
theorem find?_of_account {e : Text} {sid : Sid} {D : Domain} (h : d.foreign e = some sid)
    (hD : (d.account D sid.text).isSome) :
    (domains.find? fun D => like (cleaned e) (around D.sid)) = some D ∧
      ((cleaned e).splitOn ',').headD [] = sid.text := by
  obtain ⟨rid, hrid⟩ := d.account_sid D sid hD
  have hbegins : D.sid <+: sid.text := ⟨'-' :: rid, hrid.symm⟩
  obtain ⟨u, hu, hcleaned⟩ := cleaned_of_foreign h ((anySid_begins D).trans hbegins)
  rw [hcleaned]
  constructor
  · have hsome : (domains.find? fun D => like (sid.text ++ u) (around D.sid)).isSome := by
      rw [List.find?_isSome]
      exact ⟨D, mem_domains D, (like_sid_iff sid D hu).mpr hbegins⟩
    obtain ⟨D', hD'⟩ := Option.isSome_iff_exists.mp hsome
    have hlike := List.find?_some hD'
    rw [like_sid_iff sid D' hu, hrid] at hlike
    rw [hD', eq_of_sid_begins hlike]
  · have hcomma : ',' ∉ sid.text := sid.notMem (by decide)
    rcases hu with rfl | rfl
    · rw [List.append_nil, headD_splitOn_of_notMem hcomma]
    · exact headD_splitOn hcomma

end Identifiers

/-! ## What is written where -/

section Trace

variable [Culture] (v : Version) (d : Directory)

/-- The script goes on from an entry to another one. -/
def Passable (e e' : Text) : Prop :=
  like (cleaned e) (around anySid) = false ∧ ∃ ms, d.members (cleaned e) = some ms ∧ e' ∈ ms

/-- The lines of users at an entry. -/
def userLines (e : Text) : List Line :=
  match d.user e with
  | some p => [.person none p]
  | none =>
    match domains.find? fun D => like (cleaned e) (around D.sid) with
    | some D => (d.account D (((cleaned e).splitOn ',').headD [])).toList.map (.person (some D))
    | none => []

/-- The lines at an entry that is taken for a group, or printed at the last level. -/
def groupLines : Nat → Text → List Line
  | 0, e => [.entry (cleaned e)]
  | n + 1, e => if v = .V2 then [.opening (n = 0) (cleaned e), .closing (cleaned e)] else []

/-- The lines at an entry with a number of levels below it. -/
def ownLines (n : Nat) (e : Text) : List Line :=
  userLines d e ++
    if d.user e = none ∧ like (cleaned e) (around anySid) = false then groupLines v n e else []

/-- The levels of the script, the last one first. -/
def level : Nat → List Text → Text → List Write
  | 0, path, e => GetInUsers2 d path e
  | n + 1, path, e => userOr d path (inGroupsOf v d (n = 0) (level n) path) e

theorem GetUsers_eq_level : GetUsers v d = level v d 2 := rfl

/-- The entries below an entry at which a line is written. -/
def Visits : Nat → Text → List Text → Line → Prop
  | n, e, [], line => line ∈ ownLines v d n e
  | 0, _, _ :: _, _ => False
  | n + 1, e, e' :: es, line => d.user e = none ∧ Passable d e e' ∧ Visits n e' es line

variable {v d}

/-- What is written for an entry: the lines of users, or what the rest of the level writes. -/
theorem mem_userOr_iff {path q : List Text} {others : Text → List Write} {e : Text} {line : Line} :
    ⟨q, line⟩ ∈ userOr d path others e ↔ (q = path ∧ line ∈ userLines d e) ∨
      (d.user e = none ∧ like (cleaned e) (around anySid) = false ∧
        ⟨q, line⟩ ∈ others (cleaned e)) := by
  rw [userOr, userLines]
  cases huser : d.user e with
  | some p => simp
  | none =>
    rw [foreignOr]
    cases hfind : domains.find? fun D => like (cleaned e) (around D.sid) with
    | some D =>
      have hany : like (cleaned e) (around anySid) = true := by
        rw [← Bool.not_eq_false]
        intro hnone
        rw [find?_domains_eq_none hnone] at hfind
        cases hfind
      rw [hany]
      constructor
      · intro h
        obtain ⟨p, hp, heq⟩ := List.mem_map.mp h
        obtain ⟨rfl, rfl⟩ := Write.mk.inj heq
        exact Or.inl ⟨rfl, List.mem_map_of_mem hp⟩
      · rintro (⟨rfl, h⟩ | ⟨-, h, -⟩)
        · obtain ⟨p, hp, rfl⟩ := List.mem_map.mp h
          exact List.mem_map_of_mem hp
        · cases h
    | none =>
      cases hany : like (cleaned e) (around anySid) <;> simp

omit [Culture] in
/-- What is written for a group: the lines around the members and what is written for them. -/
theorem mem_inGroupsOf_iff {last : Bool} {next : List Text → Text → List Write}
    {path q : List Text} {e : Text} {line : Line} :
    ⟨q, line⟩ ∈ inGroupsOf v d last next path e ↔
      (q = path ∧ v = .V2 ∧ (line = .opening last e ∨ line = .closing e)) ∨
        ∃ ms, d.members e = some ms ∧ ∃ e' ∈ ms, ⟨q, line⟩ ∈ next (path ++ [e']) e' := by
  have hnested : ⟨q, line⟩ ∈ ((d.members e).getD []).flatMap (fun e' => next (path ++ [e']) e') ↔
      ∃ ms, d.members e = some ms ∧ ∃ e' ∈ ms, ⟨q, line⟩ ∈ next (path ++ [e']) e' := by
    rw [List.mem_flatMap]
    cases d.members e <;> simp
  rw [inGroupsOf, List.mem_append, List.mem_append, hnested]
  cases v with
  | V1 => simp
  | V2 =>
    simp only [if_true, List.mem_singleton, Write.mk.injEq, true_and]
    rw [and_or_left]
    exact or_right_comm

/-- The lines at the entry itself, and those below it. -/
theorem mem_level_iff {n : Nat} {path q : List Text} {e : Text} {line : Line} :
    ⟨q, line⟩ ∈ level v d n path e ↔ ∃ es, q = path ++ es ∧ Visits v d n e es line := by
  induction n generalizing path e with
  | zero =>
    have hlevel : level v d 0 path e = userOr d path (fun t => [⟨path, .entry t⟩]) e := rfl
    rw [hlevel, mem_userOr_iff]
    constructor
    · rintro (⟨rfl, h⟩ | ⟨huser, hany, h⟩)
      · exact ⟨[], (List.append_nil _).symm, List.mem_append_left _ h⟩
      · obtain ⟨rfl, rfl⟩ := Write.mk.inj (List.mem_singleton.mp h)
        refine ⟨[], (List.append_nil _).symm, List.mem_append_right _ ?_⟩
        rw [if_pos ⟨huser, hany⟩]
        exact List.mem_singleton_self _
    · rintro ⟨es, rfl, h⟩
      cases es with
      | nil =>
        rw [List.append_nil]
        rcases List.mem_append.mp h with h | h
        · exact Or.inl ⟨rfl, h⟩
        · split_ifs at h with hnone
          · rw [List.mem_singleton.mp h]
            exact Or.inr ⟨hnone.1, hnone.2, List.mem_singleton_self _⟩
          · cases h
      | cons e' es => exact h.elim
  | succ n ih =>
    rw [level, mem_userOr_iff]
    simp only [mem_inGroupsOf_iff, ih]
    constructor
    · rintro (⟨rfl, h⟩ | ⟨huser, hany, ⟨rfl, hv, h⟩ | ⟨ms, hms, e', he', es, rfl, h⟩⟩)
      · exact ⟨[], (List.append_nil _).symm, List.mem_append_left _ h⟩
      · refine ⟨[], (List.append_nil _).symm, List.mem_append_right _ ?_⟩
        rw [if_pos ⟨huser, hany⟩, groupLines, if_pos hv]
        simpa using h
      · exact ⟨e' :: es, by simp, huser, ⟨hany, ms, hms, he'⟩, h⟩
    · rintro ⟨es, rfl, h⟩
      cases es with
      | nil =>
        rw [List.append_nil]
        rcases List.mem_append.mp h with h | h
        · exact Or.inl ⟨rfl, h⟩
        · split_ifs at h with hnone
          · rw [groupLines] at h
            split_ifs at h with hv
            · exact Or.inr ⟨hnone.1, hnone.2, Or.inl ⟨rfl, hv, by simpa using h⟩⟩
            · cases h
          · cases h
      | cons e' es =>
        obtain ⟨huser, ⟨hany, ms, hms, he'⟩, h⟩ := h
        exact Or.inr ⟨huser, hany, Or.inr ⟨ms, hms, e', he', es, by simp, h⟩⟩

/-- What is written for the members of a group that exists. -/
theorem mem_reportFrom_iff {g : Text} {ms : List Text} (hms : d.members g = some ms)
    (previous groups : List Text) {e : Text} {es : List Text} {line : Line} :
    ⟨g :: e :: es, line⟩ ∈ reportFrom v d previous groups ↔
      g ∈ groups ∧ e ∈ ms ∧ Visits v d 2 e es line := by
  have hmember : ∀ g' (members : List Text),
      ⟨g :: e :: es, line⟩ ∈ members.flatMap (fun m => GetUsers v d [g', m] m) ↔
        g = g' ∧ e ∈ members ∧ Visits v d 2 e es line := by
    intro g' members
    rw [List.mem_flatMap]
    constructor
    · rintro ⟨m, hm, h⟩
      rw [GetUsers_eq_level, mem_level_iff] at h
      obtain ⟨es', heq, hvisits⟩ := h
      simp only [List.cons_append, List.nil_append, List.cons.injEq] at heq
      obtain ⟨rfl, rfl, rfl⟩ := heq
      exact ⟨rfl, hm, hvisits⟩
    · rintro ⟨rfl, he, hvisits⟩
      refine ⟨e, he, ?_⟩
      rw [GetUsers_eq_level, mem_level_iff]
      exact ⟨es, rfl, hvisits⟩
  induction groups generalizing previous with
  | nil => simp [reportFrom]
  | cons g' groups ih =>
    have hrest : ⟨g :: e :: es, line⟩ ∈ reportFrom v d ((d.members g').getD previous) groups ↔
        g ∈ groups ∧ e ∈ ms ∧ Visits v d 2 e es line := ih _
    rw [reportFrom, List.mem_cons, List.mem_append, hmember, hrest, List.mem_cons]
    constructor
    · rintro (h | ⟨rfl, he, hvisits⟩ | ⟨hg, he, hvisits⟩)
      · simp at h
      · rw [hms, Option.getD_some] at he
        exact ⟨Or.inl rfl, he, hvisits⟩
      · exact ⟨Or.inr hg, he, hvisits⟩
    · rintro ⟨rfl | hg, he, hvisits⟩
      · rw [hms, Option.getD_some]
        exact Or.inr (Or.inl ⟨rfl, he, hvisits⟩)
      · exact Or.inr (Or.inr ⟨hg, he, hvisits⟩)

/-- Nothing is written below the third level. -/
theorem length_path_le {previous groups : List Text} {w : Write}
    (h : w ∈ reportFrom v d previous groups) : w.path.length ≤ 4 := by
  have hlevel : ∀ {n e es line}, Visits v d n e es line → es.length ≤ n := by
    intro n e es line hvisits
    induction es generalizing n e with
    | nil => exact Nat.zero_le n
    | cons e' es ih =>
      cases n with
      | zero => exact hvisits.elim
      | succ n => exact Nat.succ_le_succ (ih hvisits.2.2)
  induction groups generalizing previous with
  | nil => cases h
  | cons g groups ih =>
    rcases List.mem_cons.mp h with rfl | h
    · exact Nat.le_add_left 1 3
    · rcases List.mem_append.mp h with h | h
      · obtain ⟨m, -, h⟩ := List.mem_flatMap.mp h
        rw [GetUsers_eq_level] at h
        obtain ⟨es, hpath, hvisits⟩ := mem_level_iff.mp h
        have hle := hlevel hvisits
        rw [hpath, List.length_append, List.length_cons, List.length_singleton]
        omega
      · exact ih h

end Trace

/-! ## When nobody is lost -/

section Lost

variable [Culture] {v : Version} {d : Directory}

/-- An entry has its line: it is a known user, or it is named by a level that prints what it
takes for a group, without a change. -/
def Listed (v : Version) (d : Directory) (level : Nat) (e : Text) : Prop :=
  (∃ line, Known d e line) ∨ (like (cleaned e) (around anySid) = false ∧ (v = .V2 ∨ level = 3) ∧
    (cleaned e = e ∨ ∃ sid, d.foreign e = some sid ∧ cleaned e = sid.text))

/-- Every entry that is reached has its line, and the groups on the way are gone through. -/
def Kept (v : Version) (d : Directory) (groups : List Text) : Prop :=
  ∀ g ∈ groups, ∀ es, Chain d g es → es.length ≤ 3 → ∀ e, es.getLast? = some e →
    Opened d es.length e ∨ (es.IsChain (Passable d) ∧ Listed v d es.length e)

/-- The lines of users are those of known users. -/
theorem userLines_eq {e : Text} {line : Line} (h : Known d e line) :
    ∃ other ∈ userLines d e, Known d e other := by
  cases huser : d.user e with
  | some p =>
    refine ⟨.person none p, ?_, .own huser⟩
    rw [userLines, huser]
    exact List.mem_singleton_self _
  | none =>
    cases h with
    | own hown =>
      rw [huser] at hown
      cases hown
    | @other sid D p hforeign hp =>
      obtain ⟨hfind, hhead⟩ := find?_of_account hforeign (by rw [hp]; rfl)
      refine ⟨.person (some D) p, ?_, .other hforeign hp⟩
      rw [userLines, huser]
      simp only [hfind, hhead, hp]
      exact List.mem_singleton_self _

theorem names_of_mem_userLines {e : Text} {line : Line} (h : line ∈ userLines d e) :
    line.names = none := by
  rw [userLines] at h
  split at h
  · rw [List.mem_singleton.mp h]
    rfl
  · split at h
    · obtain ⟨p, -, rfl⟩ := List.mem_map.mp h
      rfl
    · cases h

/-- The names at an entry that is taken for a group. -/
theorem exists_groupLines_iff {n : Nat} {e t : Text} :
    (∃ line ∈ groupLines v n e, line.names = some t) ↔ (v = .V2 ∨ n = 0) ∧ t = cleaned e := by
  cases n with
  | zero => simp [groupLines, Line.names, eq_comm]
  | succ n => cases v <;> simp [groupLines, Line.names, eq_comm]

/-- An entry is shown by its own lines exactly if it is listed. -/
theorem exists_shows_iff {n : Nat} {e : Text} : (∃ line ∈ ownLines v d n e, Shows d e line) ↔
    (∃ line, Known d e line) ∨ (like (cleaned e) (around anySid) = false ∧ (v = .V2 ∨ n = 0) ∧
      (cleaned e = e ∨ ∃ sid, d.foreign e = some sid ∧ cleaned e = sid.text)) := by
  constructor
  · rintro ⟨line, hline, hknown | ⟨-, t, hnames, ht⟩⟩
    · exact Or.inl ⟨line, hknown⟩
    · rcases List.mem_append.mp hline with hline | hline
      · rw [names_of_mem_userLines hline] at hnames
        cases hnames
      · split_ifs at hline with hnone
        · obtain ⟨hlevel, rfl⟩ := exists_groupLines_iff.mp ⟨line, hline, hnames⟩
          exact Or.inr ⟨hnone.2, hlevel, ht⟩
        · cases hline
  · by_cases hknown : ∃ line, Known d e line
    · rintro -
      obtain ⟨line, hknown⟩ := hknown
      obtain ⟨other, hother, hknown⟩ := userLines_eq hknown
      exact ⟨other, List.mem_append_left _ hother, Or.inl hknown⟩
    · rintro (h | ⟨hany, hlevel, ht⟩)
      · exact absurd h hknown
      · have huser : d.user e = none := by
          rw [Option.eq_none_iff_forall_not_mem]
          exact fun p hp => hknown ⟨_, .own hp⟩
        obtain ⟨line, hline, hnames⟩ := exists_groupLines_iff.mpr ⟨hlevel, rfl⟩
        refine ⟨line, List.mem_append_right _ ?_, Or.inr ⟨not_exists.mp hknown, _, hnames, ht⟩⟩
        rw [if_pos ⟨huser, hany⟩]
        exact hline

/-- On the way of a chain, the script writes at the last entry if it passes the others. -/
theorem visits_iff {n : Nat} {e x : Text} {es : List Text} {line : Line} (hchain : Chain d e es)
    (hn : es.length ≤ n) (hlast : (e :: es).getLast? = some x) :
    Visits v d n e es line ↔
      (e :: es).IsChain (Passable d) ∧ line ∈ ownLines v d (n - es.length) x := by
  induction es generalizing n e with
  | nil =>
    obtain rfl : e = x := Option.some.inj hlast
    simp [Visits]
  | cons e' es ih =>
    obtain ⟨⟨ms, hms, -⟩, hrest⟩ := hchain
    obtain ⟨n, rfl⟩ : ∃ m, n = m + 1 := ⟨n - 1, by rw [List.length_cons] at hn; omega⟩
    have huser : d.user e = none := d.user_of_members e (by rw [hms]; rfl)
    have hlast' : (e' :: es).getLast? = some x := by rwa [List.getLast?_cons_cons] at hlast
    rw [Visits, ih hrest (Nat.le_of_succ_le_succ hn) hlast', List.isChain_cons_cons,
      List.length_cons, Nat.add_sub_add_right, and_assoc]
    exact and_iff_right huser

/-- Nobody is lost exactly if every entry on the way to an entry is gone through and the entry
has its line. -/
theorem complete_iff (v : Version) (d : Directory) (groups : List Text) :
    Complete d v groups ↔ Kept v d groups := by
  have hentry : ∀ g ∈ groups, ∀ es, Chain d g es → es.length ≤ 3 → ∀ e, es.getLast? = some e →
      ((∃ line, Shows d e line ∧ ⟨g :: es, line⟩ ∈ report v d groups) ↔
        es.IsChain (Passable d) ∧ Listed v d es.length e) := by
    intro g hg es hchain hlength e hlast
    cases es with
    | nil => cases hlast
    | cons e₁ es =>
      obtain ⟨⟨ms, hms, he₁⟩, hrest⟩ := hchain
      have hle : es.length ≤ 2 := Nat.le_of_succ_le_succ hlength
      have hlevel : (e₁ :: es).length = 3 ↔ 2 - es.length = 0 := by
        rw [List.length_cons]
        omega
      simp only [report, mem_reportFrom_iff hms, visits_iff hrest hle hlast, hg, he₁, true_and]
      rw [Listed, hlevel, ← exists_shows_iff]
      constructor
      · rintro ⟨line, hshows, hpass, hline⟩
        exact ⟨hpass, line, hline, hshows⟩
      · rintro ⟨hpass, line, hline, hshows⟩
        exact ⟨line, hshows, hpass, hline⟩
  constructor
  · intro h g hg es hchain hlength e hlast
    exact (h.shown g hg es hchain hlength e hlast).imp_right
      (hentry g hg es hchain hlength e hlast).mp
  · intro h
    refine ⟨fun g hg es hchain hlength e hlast => ?_, fun w hw => length_path_le hw⟩
    exact (h g hg es hchain hlength e hlast).imp_right
      (hentry g hg es hchain hlength e hlast).mpr

omit [Culture] in
/-- A line that names an entry begins with it. -/
theorem prefix_text_of_names {line : Line} {t : Text} (h : line.names = some t) :
    t <+: line.text v := by
  cases line with
  | group g => cases h
  | person server p => cases h
  | entry u =>
    cases h
    exact List.prefix_refl t
  | opening last u =>
    cases h
    cases last <;> exact List.prefix_append t _
  | closing u =>
    cases h
    exact List.prefix_append t _

omit [Culture] in
theorem Shows.says {e : Text} {line : Line} (h : Shows d e line) : Says d v e (line.text v) := by
  obtain hknown | ⟨-, t, hnames, rfl | ⟨sid, hforeign, rfl⟩⟩ := h
  · exact Or.inl ⟨line, hknown, rfl⟩
  · exact Or.inr (Or.inl (prefix_text_of_names hnames))
  · exact Or.inr (Or.inr ⟨sid, hforeign, prefix_text_of_names hnames⟩)

/-- Where nobody is lost, the printed file says something of every entry, a group apart that is
listed at the next level. -/
theorem Complete.exists_says {groups : List Text} (h : Complete d v groups) {g e : Text}
    {es : List Text} (hg : g ∈ groups) (hchain : Chain d g es) (hlength : es.length ≤ 3)
    (hlast : es.getLast? = some e) :
    Opened d es.length e ∨ ∃ text ∈ fileLines v d groups, Says d v e text := by
  obtain hopened | ⟨line, hshows, hline⟩ := h.shown g hg es hchain hlength e hlast
  · exact Or.inl hopened
  · exact Or.inr ⟨line.text v, List.mem_map_of_mem hline, hshows.says⟩

end Lost

section Example

local instance asciiGroups : Culture := Culture.ascii

/-- A principal of a domain that the scripts do not know. -/
def stranger : Text :=
  "CN=S-1-5-21-1-2-3-1000,CN=ForeignSecurityPrincipals,DC=action-crm,DC=local".toList

/-- A group with the stranger as its only member. -/
def strangers : Directory where
  user := fun _ => none
  members := fun dn => if dn = "CN=Managers".toList then some [stranger] else none
  foreign := fun dn => if dn = stranger then
    some ⟨"S-1-5-21-1-2-3-1000".toList, "-1-5-21-1-2-3-1000".toList, rfl, by decide⟩ else none
  account := fun _ _ => none
  user_of_members := fun _ _ => rfl
  foreign_dn := by
    intro dn sid h
    have hname : stranger = "CN=".toList ++ ("S-1-5-21-1-2-3-1000".toList ++
        (",CN=".toList ++ "ForeignSecurityPrincipals,DC=action-crm,DC=local".toList)) := by
      decide +kernel
    split_ifs at h with hdn
    obtain rfl := Option.some.inj h
    exact ⟨_, hdn.trans hname, Or.inr (List.prefix_append _ _)⟩
  account_sid := fun _ _ h => nomatch h

/-- The stranger is written nowhere. -/
theorem strangers_not_complete : ¬Complete strangers .V1 ["CN=Managers".toList] ∧
    ¬Complete strangers .V2 ["CN=Managers".toList] := by
  have hreport : ∀ v ∈ [Version.V1, .V2], report v strangers ["CN=Managers".toList] =
      [⟨["CN=Managers".toList], .group "CN=Managers".toList⟩] := by decide +kernel
  have hlost : ∀ v ∈ [Version.V1, .V2], ¬Complete strangers v ["CN=Managers".toList] := by
    intro v hv h
    have hmember : strangers.members "CN=Managers".toList = some [stranger] := by
      decide +kernel
    have hopened : ¬Opened strangers 1 stranger := by
      have hnone : strangers.members stranger = none := by decide +kernel
      rw [Opened, hnone]
      simp
    obtain hopen | ⟨line, -, hline⟩ := h.shown _ (List.mem_singleton_self _) [stranger]
      ⟨⟨_, hmember, List.mem_singleton_self _⟩, trivial⟩ (by decide) stranger rfl
    · exact hopened hopen
    · rw [hreport v hv, List.mem_singleton, Write.mk.injEq] at hline
      exact absurd (congrArg List.length hline.1) (by decide)
  exact ⟨hlost .V1 (by decide), hlost .V2 (by decide)⟩

end Example

end OpsScripts.Reports
