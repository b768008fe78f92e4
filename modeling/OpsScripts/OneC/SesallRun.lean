import OpsScripts.OneC.Packets

/-!
# The session reader on its own lines

When every line of a listing takes the branch of its own key, a session becomes one
complete object, whatever the objects before it were, and the result holds the objects
of all sessions in order.
-/

namespace OpsScripts.OneC.Windows

/-! ## The branches of the keys -/

/-- The branches of a session, each with the place of its line. -/
def events : List (Branch × Fin 49) :=
  [(.session, Field.session), (.infobase, Field.infobase), (.userName, Field.userName),
    (.appId, Field.appId), (.startedAt, Field.startedAt), (.lastActiveAt, Field.lastActiveAt),
    (.hibernate, Field.hibernate), (.callsLast, Field.callsLast),
    (.durationCurrent, Field.durationCurrent),
    (.durationCurrentDbms, Field.durationCurrentDbms), (.memoryLast, Field.memoryLast),
    (.readLast, Field.readLast), (.writeLast, Field.writeLast),
    (.cpuTimeLast, Field.cpuTimeLast)]

/-- The branch that a line is meant for. -/
def ownBranch (j : Fin 49) : Option Branch := (events.find? fun e => e.2 = j).map Prod.fst

theorem filterMap_ownBranch :
    (List.finRange 49).filterMap (fun j => (ownBranch j).map fun b => (b, j)) = events := by
  decide +kernel

section Run

variable [Culture] (E : Engine) (casts : Casts)

/-- No keyword occurs in a blank line. -/
theorem hasKeyword_nil {keyword : String} (h : keyword.toList ≠ []) :
    hasKeyword [] keyword = false := by
  rw [← Bool.not_eq_true]
  intro hmatch
  obtain ⟨u, hu, hrel⟩ := (Regex.isMatch_literal _ _ _).mp hmatch
  rw [List.eq_nil_of_infix_nil hu] at hrel
  exact h (List.forall₂_nil_right_iff.mp hrel)

theorem branchOf_nil : branchOf [] = none := by
  have hne : ∀ k ∈ keywords, k.2.toList ≠ [] := by decide +kernel
  rw [branchOf, Option.map_eq_none_iff, List.find?_eq_none]
  intro k hk
  rw [hasKeyword_nil (hne k hk)]
  exact Bool.false_ne_true

/-- Every line of a session takes its own branch. -/
def OwnBranches (L : Layout) (s : Session) : Prop :=
  ∀ j, branchOf (keyLine (L.key j) (s.value j)) = ownBranch j

variable {L : Layout} {s : Session} (infoBaseBase : List (Text × Text))

/-- The lines of a session are the branches with their values. -/
theorem foldl_read_session (h : OwnBranches L s) (st : Reader) :
    (s.print L).foldl (Reader.read E casts infoBaseBase) st =
      events.foldl (fun st e => st.branch E casts infoBaseBase
        (keyLine (L.key e.2) (s.value e.2)) e.1) st := by
  have hblank : ∀ st : Reader, st.read E casts infoBaseBase [] = st := by
    intro st
    rw [Reader.read, branchOf_nil]
  have hread : ∀ (js : List (Fin 49)) (st : Reader),
      (js.map fun j => keyLine (L.key j) (s.value j)).foldl (Reader.read E casts infoBaseBase) st =
        (js.filterMap fun j => (ownBranch j).map fun b => (b, j)).foldl
          (fun st e => st.branch E casts infoBaseBase (keyLine (L.key e.2) (s.value e.2)) e.1)
          st := by
    intro js
    induction js with
    | nil => exact fun _ => rfl
    | cons j js ih =>
      intro st
      rw [List.map_cons, List.foldl_cons, ih, Reader.read, h j]
      cases hj : ownBranch j with
      | none => rw [List.filterMap_cons_none (by rw [hj]; rfl)]
      | some b => rw [List.filterMap_cons_some (by rw [hj]; rfl), List.foldl_cons]
  rw [Session.print, List.foldl_append, List.ofFn_eq_map, hread, filterMap_ownBranch]
  exact hblank _

/-! ## One session -/

omit [Culture] in
theorem modify_append_length {α : Type} (f : α → α) (xs : List α) (x : α) :
    (xs ++ [x]).modify xs.length f = xs ++ [f x] := by
  induction xs with
  | nil => rfl
  | cons y xs ih => rw [List.cons_append, List.length_cons, List.modify_succ_cons, ih,
      List.cons_append]

omit [Culture] in
/-- The object begun last gets a property. -/
theorem set_last (objects : List PSObject) (o : PSObject) (sessionBase : List (Option Nat))
    (sleep : Int) (name : String) (v : Value) :
    Reader.set ⟨objects ++ [o], some objects.length, sessionBase, sleep⟩ name v =
      ⟨objects ++ [addMember name v o], some objects.length, sessionBase, sleep⟩ := by
  rw [Reader.set]
  simp only [modify_append_length]

/-- The values of a session whose times and numbers can be converted. -/
structure Converted (s : Session) where
  started : Text
  last : Text
  long : Fin 49 → Int
  started_eq : casts.datetime (s.value Field.startedAt) = some started
  last_eq : casts.datetime (s.value Field.lastActiveAt) = some last
  long_eq : ∀ j ∈ [Field.callsLast, Field.durationCurrent, Field.durationCurrentDbms,
      Field.memoryLast, Field.readLast, Field.writeLast, Field.cpuTimeLast],
    casts.long (s.value j) = some (long j)

/-- The object of a session. -/
def described {casts : Casts} {s : Session} (v : Converted casts s) (base : Text) (sleep : Int) :
    PSObject :=
  [("uid", .string (s.value Field.session)), ("base", .string base),
    ("user", .string (s.value Field.userName)), ("type", .string (s.value Field.appId)),
    ("Started", .string v.started), ("Last", .string v.last), ("sleep", .number sleep),
    ("calls_5min", .number (v.long Field.callsLast)),
    ("dur_current", .number (v.long Field.durationCurrent)),
    ("dur_db_cur", .number (v.long Field.durationCurrentDbms)),
    ("m_5min", .number (v.long Field.memoryLast)),
    ("read_5min", .number (v.long Field.readLast)),
    ("write_5min", .number (v.long Field.writeLast)),
    ("cpu_5min", .number (v.long Field.cpuTimeLast))]

/-- A session adds its object and a reference to it. -/
theorem foldl_session (h : OwnBranches L s) (v : Converted casts s) (st : Reader) :
    (s.print L).foldl (Reader.read E casts infoBaseBase) st =
      let sleep := sleepAfter st.sleep (keyLine (L.key Field.hibernate) (s.value Field.hibernate))
      let base := infoBaseName E infoBaseBase (s.value Field.infobase)
      ⟨st.objects ++ [described v base sleep], some st.objects.length,
        st.sessionBase ++ [some st.objects.length], sleep⟩ := by
  have hstrip : ∀ j, stripKey (keyLine (L.key j) (s.value j)) = s.value j :=
    fun j => stripKey_keyLine (L.key_colon j) _
  have hlong := v.long_eq
  simp only [List.mem_cons, List.not_mem_nil, or_false, forall_eq_or_imp, forall_eq] at hlong
  obtain ⟨h19, h27, h28, h32, h35, h38, h45⟩ := hlong
  rw [foldl_read_session E casts infoBaseBase h]
  simp only [events, List.foldl_cons, List.foldl_nil, Reader.branch, hstrip, set_last,
    Reader.setCast, v.started_eq, v.last_eq, h19, h27, h28, h32, h35, h38, h45, Option.map_some]
  simp [addMember, described]

/-! ## The summary -/

section Keyword

omit [Culture] in
theorem forall₂_dotEq_self {eq : Char → Char → Bool} (heq : ∀ x, eq x x = true) (t : Text) :
    List.Forall₂ (fun x y => Regex.dotEq eq x y = true) t t := by
  rw [List.forall₂_same]
  intro x _
  rw [Regex.dotEq]
  split_ifs with hx
  · subst hx
    rfl
  · exact heq x

/-- A keyword occurs where its letters stand. -/
theorem hasKeyword_of_infix {line : Text} {keyword : String} (h : keyword.toList <:+: line) :
    hasKeyword line keyword = true :=
  (Regex.isMatch_literal _ _ _).mpr
    ⟨keyword.toList, h, forall₂_dotEq_self (fun x => by simp [letterEq]) _⟩

omit [Culture] in
/-- Every element on the left is related to one on the right. -/
theorem exists_related {R : Char → Char → Prop} {t u : Text} (h : List.Forall₂ R t u) {x : Char}
    (hx : x ∈ t) : ∃ y ∈ u, R x y := by
  induction h with
  | nil => cases hx
  | cons hxy _ ih =>
    rcases List.mem_cons.mp hx with rfl | hx
    · exact ⟨_, List.mem_cons_self, hxy⟩
    · obtain ⟨y, hy, hr⟩ := ih hx
      exact ⟨y, List.mem_cons_of_mem _ hy, hr⟩

/-- A keyword with the letter `m` occurs in no line without one. -/
theorem hasKeyword_eq_false {line : Text} {keyword : String} (hm : 'm' ∈ keyword.toList)
    (h : ∀ x ∈ line, Culture.lower x ≠ 'm') : hasKeyword line keyword = false := by
  rw [← Bool.not_eq_true]
  intro hmatch
  obtain ⟨u, hu, hrel⟩ := (Regex.isMatch_literal _ _ _).mp hmatch
  obtain ⟨x, hx, hmx⟩ := exists_related hrel hm
  rw [Regex.dotEq, if_neg (by decide), letterEq, if_pos rfl, beq_iff_eq,
    Culture.lower_ascii 'm' (by decide)] at hmx
  exact h x (hu.subset hx) hmx.symm

end Keyword

/-- An infobase whose name and description do not look like other lines. -/
structure Ordinary (b : OneC.Infobase) : Prop where
  name : hasKeyword (keyLine "name     ".toList b.name) "infobase" = false
  descr : hasKeyword (keyLine "descr    ".toList b.descr) "infobase" = false
  descr_name : hasKeyword (keyLine "descr    ".toList b.descr) "name" = false

/-- Identifiers and their key have no `m`. -/
theorem lower_ne_of_mem_id (u : Uuid) :
    ∀ x ∈ keyLine "infobase ".toList u.text, Culture.lower x ≠ 'm' := by
  have hall : ("infobase :".toList ++ "0123456789abcdefABCDEF-".toList).all
      (fun x => decide (x.val < 128) && x.toLower != 'm') = true := by decide +kernel
  intro x hx
  have hmem : x ∈ "infobase :".toList ++ "0123456789abcdefABCDEF-".toList := by
    simp only [keyLine, printed, List.mem_append, List.mem_cons] at hx
    rcases hx with hx | rfl | rfl | hx
    · exact List.mem_append_left _ (List.mem_of_mem_dropLast (by exact hx))
    · decide +kernel
    · decide +kernel
    · exact List.mem_append_right _ (u.hex x hx)
  have hx' := List.all_eq_true.mp hall x hmem
  simp only [Bool.and_eq_true, decide_eq_true_eq, bne_iff_ne, ne_eq] at hx'
  rw [Culture.lower_ascii x hx'.1]
  exact hx'.2

/-- The three lines of an ordinary infobase make its entry. -/
theorem foldl_readInfobase {b : OneC.Infobase} (h : Ordinary b) (gap : Nat) (st : Infobases) :
    (b.print gap).foldl readInfobase st =
      ⟨some (b.id.text, some b.name), st.infoBaseBase ++ [(b.id.text, b.name)]⟩ := by
  have hid : hasKeyword (keyLine "infobase ".toList b.id.text) "infobase" = true :=
    hasKeyword_of_infix ⟨[], " :".toList ++ printed b.id.text, by
      rw [keyLine, List.nil_append, ← List.append_assoc]
      rfl⟩
  have hidName : hasKeyword (keyLine "infobase ".toList b.id.text) "name" = false :=
    hasKeyword_eq_false (by decide) (lower_ne_of_mem_id b.id)
  have hname : hasKeyword (keyLine "name     ".toList b.name) "name" = true :=
    hasKeyword_of_infix ⟨[], "     :".toList ++ printed b.name, by
      rw [keyLine, List.nil_append, ← List.append_assoc]
      rfl⟩
  have hblank : ∀ st : Infobases, readInfobase st [] = st := by
    intro st
    rw [readInfobase, hasKeyword_nil (by decide), hasKeyword_nil (by decide)]
    rfl
  have hblanks : ∀ (n : Nat) (st : Infobases),
      (List.replicate n ([] : Text)).foldl readInfobase st = st := by
    intro n
    induction n with
    | zero => exact fun _ => rfl
    | succ n ih =>
      intro st
      rw [List.replicate_succ, List.foldl_cons, hblank, ih]
  rw [OneC.Infobase.print, List.foldl_append, hblanks]
  simp only [List.foldl_cons, List.foldl_nil, readInfobase, hid, hidName, hname, h.name, h.descr,
    h.descr_name, if_true, if_false, Bool.false_eq_true, Option.getD_none,
    stripKey_keyLine (show ':' ∉ "infobase ".toList by decide),
    stripKey_keyLine (show ':' ∉ "name     ".toList by decide)]

/-- Ordinary infobases are collected in the order of the summary. -/
theorem infobases_print {bs : List OneC.Infobase} (h : ∀ b ∈ bs, Ordinary b) (gap : Nat) :
    infobases (bs.flatMap (OneC.Infobase.print gap)) = bs.map fun b => (b.id.text, b.name) := by
  have hrun : ∀ st : Infobases, ((bs.flatMap (OneC.Infobase.print gap)).foldl readInfobase
      st).infoBaseBase = st.infoBaseBase ++ bs.map fun b => (b.id.text, b.name) := by
    induction bs with
    | nil => exact fun st => (List.append_nil _).symm
    | cons b bs ih =>
      intro st
      rw [List.flatMap_cons, List.foldl_append, foldl_readInfobase (h b List.mem_cons_self),
        ih fun b' hb' => h b' (List.mem_cons_of_mem b hb'), List.map_cons, List.append_assoc,
        List.singleton_append]
  exact hrun ⟨none, []⟩

/-! ## All sessions -/

/-- A session that the reader reads as it is meant: its lines take their own branches,
its values can be converted, the line `hibernate` says yes or no, and its infobase is
found under its identifier only. -/
structure Readable (L : Layout) (bs : List OneC.Infobase) (s : Session) : Prop where
  branches : OwnBranches L s
  converted : Nonempty (Converted casts s)
  sleep : ∀ n, sleepAfter n (keyLine (L.key Field.hibernate) (s.value Field.hibernate)) =
    if s.value Field.hibernate = "yes".toList then 1 else 0
  base : Regex.Plain (s.value Field.infobase)
  found : ∀ b ∈ bs, toLower (s.value Field.infobase) <:+: toLower b.id.text →
    b.id.text = s.value Field.infobase

/-- The entries of the infobases. -/
def entries (bs : List OneC.Infobase) : List (Text × Text) := bs.map fun b => (b.id.text, b.name)

omit [Culture] in
/-- At most one infobase has an identifier. -/
theorem joinNames_filter {bs : List OneC.Infobase} (h : (bs.map fun b => b.id.text).Nodup)
    (uid : Text) : joinNames ((bs.filter fun b => b.id.text = uid).map fun b => b.name) =
      baseName bs uid := by
  induction bs with
  | nil => rfl
  | cons b bs ih =>
    rw [List.map_cons, List.nodup_cons] at h
    by_cases hb : b.id.text = uid
    · have hrest : bs.filter (fun b => b.id.text = uid) = [] := by
        rw [List.filter_eq_nil_iff]
        intro b' hb' heq
        refine h.1 (List.mem_map.mpr ⟨b', hb', ?_⟩)
        rw [of_decide_eq_true heq, hb]
      rw [List.filter_cons_of_pos (by simpa using hb), hrest, baseName,
        List.find?_cons_of_pos (by simpa using hb)]
      rfl
    · rw [List.filter_cons_of_neg (by simpa using hb), ih h.2, baseName, baseName,
        List.find?_cons_of_neg (by simpa using hb)]

/-- The base of a readable session is the name of its infobase. -/
theorem Readable.infoBaseName_eq {bs : OneC.Infobases} (h : Readable casts L bs.list s) :
    infoBaseName E (entries bs.list) (s.value Field.infobase) =
      baseName bs.list (s.value Field.infobase) := by
  obtain ⟨test, hcompile, htest⟩ := E.compile_plain h.base
  have hfilter : (entries bs.list).filter (fun b => test b.1) =
      entries (bs.list.filter fun b => b.id.text = s.value Field.infobase) := by
    rw [entries, List.filter_map, entries]
    congr 1
    apply List.filter_congr
    intro b hb
    rw [Bool.eq_iff_iff, Function.comp_apply, htest, decide_eq_true_iff]
    exact ⟨h.found b hb, fun heq => by rw [heq]⟩
  rw [infoBaseName, hcompile, Option.getD_some, hfilter, ← joinNames_filter bs.distinct, entries,
    List.map_map]
  rfl

omit [Culture] in
/-- All properties of a described session are there. -/
theorem describes_described {bs : List OneC.Infobase} (v : Converted casts s) {base : Text}
    (hbase : base = baseName bs (s.value Field.infobase)) {sleep : Int}
    (hsleep : sleep = if s.value Field.hibernate = "yes".toList then 1 else 0) :
    Describes casts bs s (some (described v base sleep)) := by
  have hlong := v.long_eq
  simp only [List.mem_cons, List.not_mem_nil, or_false, forall_eq_or_imp, forall_eq] at hlong
  obtain ⟨h19, h27, h28, h32, h35, h38, h45⟩ := hlong
  simp [described, Describes, expected, property, List.lookup_cons, hbase, hsleep, v.started_eq,
    v.last_eq, h19, h27, h28, h32, h35, h38, h45]

/-- A state of the reader behind some sessions: the result refers to all objects made so
far, and these describe the sessions. -/
structure Behind (bs : List OneC.Infobase) (ss : List Session) (st : Reader) : Prop where
  sessionBase : st.sessionBase = (List.range st.objects.length).map some
  objects : List.Forall₂ (Describes casts bs) ss (st.objects.map some)

/-- One more session. -/
theorem Behind.session {bs : OneC.Infobases} {done : List Session} {st : Reader}
    (hst : Behind casts bs.list done st) (h : Readable casts L bs.list s) :
    Behind casts bs.list (done ++ [s])
      ((s.print L).foldl (Reader.read E casts (entries bs.list)) st) := by
  obtain ⟨v⟩ := h.converted
  rw [foldl_session E casts (entries bs.list) h.branches v, h.infoBaseName_eq E, h.sleep]
  constructor
  · simp only [hst.sessionBase, List.length_append, List.length_singleton, List.range_succ,
      List.map_append, List.map_singleton]
  · rw [List.map_append, List.map_singleton]
    exact List.rel_append hst.objects
      (List.Forall₂.cons (describes_described casts v rfl rfl) List.Forall₂.nil)

/-- All sessions of a listing. -/
theorem Behind.sessions {bs : OneC.Infobases} {ss done : List Session} {st : Reader}
    (hst : Behind casts bs.list done st) (h : ∀ s ∈ ss, Readable casts L bs.list s) :
    Behind casts bs.list (done ++ ss)
      ((ss.flatMap (Session.print L)).foldl (Reader.read E casts (entries bs.list)) st) := by
  induction ss generalizing done st with
  | nil => rwa [List.append_nil]
  | cons s ss ih =>
    have hs := hst.session E casts (h s List.mem_cons_self)
    have hss := ih hs fun t ht => h t (List.mem_cons_of_mem s ht)
    rwa [List.append_assoc, List.singleton_append, ← List.foldl_append, ← List.flatMap_cons] at hss

omit [Culture] in
/-- The result is the list of all objects. -/
theorem Behind.result {bs : List OneC.Infobase} {done : List Session} {st : Reader}
    (hst : Behind casts bs done st) : st.result = st.objects.map some := by
  rw [Reader.result, hst.sessionBase, List.map_map]
  apply List.ext_getElem?
  intro i
  by_cases hi : i < st.objects.length
  · simp [hi]
  · simp [hi]

/-- Readable sessions become one complete object each, in order. -/
theorem sessionsOf_describes {bs : OneC.Infobases} {ss : List Session}
    (hbs : ∀ b ∈ bs.list, Ordinary b)
    (h : ∀ s ∈ ss, Readable casts L bs.list s) :
    List.Forall₂ (Describes casts bs.list) ss (sessionsOf E casts L bs ss) := by
  have hstart : Behind casts bs.list [] ⟨[], none, [], 0⟩ := ⟨rfl, List.Forall₂.nil⟩
  have hend := hstart.sessions E casts h
  rw [List.nil_append] at hend
  rw [sessionsOf, sesall, infobases_print hbs, ← entries, hend.result]
  exact hend.objects

end Run

section Example

local instance : Culture := Culture.ascii

example : branchOf (keyLine (racLayout.key Field.hibernate) "yes".toList) = some .hibernate := by
  decide +kernel

end Example

end OpsScripts.OneC.Windows
