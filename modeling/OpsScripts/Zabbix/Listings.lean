import Mathlib.Data.List.Flatten
import Mathlib.Data.List.Forall2
import OpsScripts.Core.JsonText

/-!
# Listings for the monitoring

Some scripts write their discovery documents line by line: a macro and a name on each line, with a
comma behind all but the last, which is known by its number. The names are written as they are. The
monitoring reads the macros of each object of the array.
-/

namespace OpsScripts.Zabbix

open Json

/-! ## What the monitoring reads -/

/-- The value of a macro of an object. -/
def macroValue (row : Json) (name : Text) : Option Text :=
  match row.get name with
  | some (.str t) => some t
  | _ => none

/-- The values of the macros of each object of a document. -/
def lowLevelDiscovery (document : Text) (names : List Text) : Option (List (List Text)) :=
  match (loads document).bind fun v => v.get "data".toList with
  | some (.arr rows) => rows.mapM fun row => names.mapM (macroValue row)
  | _ => none

/-- A computation that succeeds for each of the mapped values. -/
theorem mapM_map_eq_some {α β γ : Type} {f : α → β} {g : β → Option γ} {h : α → γ} {xs : List α}
    (hg : ∀ x ∈ xs, g (f x) = some (h x)) : (xs.map f).mapM g = some (xs.map h) := by
  induction xs with
  | nil => rfl
  | cons x xs ih =>
    rw [List.forall_mem_cons] at hg
    rw [List.map_cons, List.mapM_cons, hg.1, ih hg.2]
    rfl

end OpsScripts.Zabbix

namespace OpsScripts.Zabbix.Listing

open Json

/-! ## The scripts -/

/-- `{ "{#KEY}" : "name" }`. -/
def entry (key name : Text) : Text :=
  "\x7b \"".toList ++ (key ++ ("\" : \"".toList ++ (name ++ "\" \x7d".toList)))

/-- The loop over the names, with the number of the next line. -/
def lines (key : Text) (count : Nat) : Nat → List Text → Text
  | _, [] => []
  | idx, name :: names =>
    (if idx < count then entry key name ++ [',', '\n'] else entry key name ++ ['\n']) ++
      lines key count (idx + 1) names

/-- The lines up to the names. -/
def opening : Text := "\x7b\n \"data\":[\n\n".toList

/-- The lines behind the names. -/
def closing : Text := "\n ]\n\x7d\n".toList

/-- What is written for some names. -/
def listing (key : Text) (names : List Text) : Text :=
  opening ++ (lines key names.length 1 names ++ closing)

/-- The macro of the scheduled tasks and of the backup jobs. -/
def apptasks : Text := "\x7b#APPTASKS\x7d".toList

/-- The macro of the agent versions. -/
def version : Text := "\x7b#VERSION\x7d".toList

/-- `DiscoverJobs` of `VeeamAgentFreeToZabbix.ps1`, for the names of the catalogue. -/
def discoverJobs (Alljobs : List Text) : Text := listing apptasks Alljobs

/-- `discovery` of `SEP.ps1`, for the versions of the catalogue. -/
def discovery (versions : List Text) : Text := listing version versions

/-! ## The text of a listing -/

/-- The objects of a listing, up to the bracket of the array. -/
def objects (key : Text) : List Text → Text
  | [] => ['\n', ' ']
  | [name] => entry key name ++ ['\n', '\n', ' ']
  | name :: names => entry key name ++ ',' :: '\n' :: objects key names

theorem objects_cons (key name : Text) {names : List Text} (h : names ≠ []) :
    objects key (name :: names) = entry key name ++ ',' :: '\n' :: objects key names := by
  rw [objects]
  exact h

/-- The last line is the one whose number is the count. -/
theorem lines_eq_objects (key : Text) {count idx : Nat} {names : List Text}
    (h : idx + names.length = count + 1) :
    lines key count idx names ++ closing =
      objects key names ++ [']', '\n', '\x7d', '\n'] := by
  induction names generalizing idx with
  | nil => rfl
  | cons name names ih =>
    rw [List.length_cons] at h
    cases names with
    | nil =>
      have hlast : ¬idx < count := by
        rw [List.length_nil] at h
        omega
      rw [lines, if_neg hlast, lines, objects]
      simp only [List.append_assoc]
      rfl
    | cons name' names =>
      have hidx : idx < count := by
        rw [List.length_cons] at h
        omega
      rw [lines, if_pos hidx, List.append_assoc, ih (by omega),
        objects_cons key name (List.cons_ne_nil _ _)]
      simp only [List.append_assoc, List.cons_append, List.nil_append]

/-- An object with a name. -/
def row (key name : Text) : Json := .obj [(key, .str name)]

/-- The object behind its brace. -/
theorem entry_append (key name rest : Text) : entry key name ++ rest =
    '\x7b' :: ' ' :: '"' :: (key ++ '"' :: ' ' :: ':' :: ' ' :: '"' ::
      (name ++ '"' :: ' ' :: '\x7d' :: rest)) := by
  simp only [entry, List.append_assoc]
  rfl

/-! ## Plain names -/

theorem spelling_plain {c : Char} (h : isMark c = false ∧ 32 ≤ c.toNat) : Spelling c [c] := by
  obtain ⟨hmark, hcontrol⟩ := h
  simp only [isMark, Bool.or_eq_false_iff, beq_eq_false_iff_ne] at hmark
  refine ⟨⟨c, rfl, hmark.1⟩, fun rest => ?_⟩
  rw [List.singleton_append, readChar, if_neg hmark.2, if_neg (Nat.not_lt_of_le hcontrol)]

/-- A plain text stands for itself. -/
theorem spells_plain {t : Text} (h : Plain t) : Spells t t := by
  induction t with
  | nil => exact Spells.nil
  | cons c t ih =>
    obtain ⟨hc, ht⟩ := List.forall_mem_cons.mp h
    exact Spells.cons (spelling_plain hc) (ih ht)

theorem blank_space : Blank [' '] := by decide

/-- An object with a plain name is a text of it. -/
theorem isValue_entry {key name : Text} (hkey : Plain key) (hname : Plain name) :
    IsValue (row key name) (entry key name) := by
  have hmember := IsMember.mk blank_space (spells_plain hkey) blank_space blank_space
    (IsValue.str (spells_plain hname))
  have hvalue : IsValue (row key name) _ := IsValue.obj (IsMembers.last hmember blank_space)
  have htext := entry_append key name []
  rw [List.append_nil] at htext
  rw [htext]
  simpa only [List.append_assoc, List.cons_append, List.nil_append] using hvalue

/-- The objects of plain names, with the white space in front of the first. -/
theorem isItems_objects {key : Text} (hkey : Plain key) {names : List Text} (hne : names ≠ [])
    (hnames : ∀ n ∈ names, Plain n) {a : Text} (ha : Blank a) :
    IsItems (names.map (row key)) (a ++ objects key names) := by
  induction names generalizing a with
  | nil => exact absurd rfl hne
  | cons name names ih =>
    obtain ⟨hname, hnames⟩ := List.forall_mem_cons.mp hnames
    have hentry := isValue_entry hkey hname
    cases names with
    | nil =>
      have hblank : Blank ['\n', '\n', ' '] := by decide
      exact IsItems.last ha hentry hblank
    | cons name' names =>
      have hblank : Blank ['\n'] := by decide
      have hrest := ih (List.cons_ne_nil _ _) hnames hblank
      rw [objects_cons key name (List.cons_ne_nil _ _)]
      exact IsItems.cons ha hentry blank_nil hrest

/-- The array of a listing. -/
theorem listing_eq (key : Text) (names : List Text) : listing key names =
    '\x7b' :: '\n' :: ' ' :: '"' :: ("data".toList ++ '"' :: ':' :: '[' ::
      ('\n' :: '\n' :: (objects key names ++ [']', '\n', '\x7d', '\n']))) := by
  have hopening : ∀ t, opening ++ t = '\x7b' :: '\n' :: ' ' :: '"' ::
      ("data".toList ++ '"' :: ':' :: '[' :: '\n' :: '\n' :: t) := fun t => rfl
  rw [listing, lines_eq_objects key (Nat.add_comm 1 _), hopening]

theorem plain_data : Plain "data".toList := by
  have hall : ∀ c ∈ "data".toList, isMark c = false ∧ 32 ≤ c.toNat := by decide
  exact hall

/-- The document of some names. -/
def document (key : Text) (names : List Text) : Json :=
  .obj [("data".toList, .arr (names.map (row key)))]

/-- Plain names are read as they are; there may be none. -/
theorem loads_listing {key : Text} (hkey : Plain key) {names : List Text}
    (hnames : ∀ n ∈ names, Plain n) : loads (listing key names) = some (document key names) := by
  have harray : IsValue (.arr (names.map (row key)))
      ('[' :: (('\n' :: '\n' :: objects key names) ++ [']'])) := by
    by_cases hne : names = []
    · subst hne
      exact IsValue.noItems (w := ['\n', '\n', '\n', ' ']) (by decide)
    · exact IsValue.arr (isItems_objects hkey hne hnames (a := ['\n', '\n']) (by decide))
  have hblank : Blank ['\n', ' '] := by decide
  have hmember := IsMember.mk hblank (spells_plain plain_data) blank_nil blank_nil harray
  have hend : Blank ['\n'] := by decide
  have hvalue : IsValue (document key names) _ := IsValue.obj (IsMembers.last hmember hend)
  have hloads := loads_of_isValue hvalue blank_nil hend
  rw [listing_eq]
  simpa only [List.append_assoc, List.cons_append, List.nil_append] using hloads

/-! ## Other names -/

/-- What follows an object: the comma and the next line, or the end of the array. -/
theorem exists_of_readValue_entry {key name w rest out : Text} (hkey : Plain key)
    (hname : '"' ∉ name) (hw : ∀ c ∈ w, isMark c = false) {n : Nat} {v : Json}
    (h : readValue n (entry key name ++ (w ++ '\n' :: rest)) = some (v, out)) :
    ∃ s, ReadAs name s ∧ v = row key s ∧ out = w ++ '\n' :: rest := by
  rw [entry_append] at h
  have hbehind : ∀ c ∈ ' ' :: '\x7d' :: w, isMark c = false :=
    List.forall_mem_cons.mpr ⟨rfl, List.forall_mem_cons.mpr ⟨rfl, hw⟩⟩
  exact exists_of_readValue_line (w := ' ' :: '\x7d' :: w) hkey hname hbehind rfl rfl rfl rfl h

/-- If the objects are read, each name is. -/
theorem exists_of_readItems_objects {key : Text} (hkey : Plain key) {names : List Text}
    (hne : names ≠ []) (hnames : ∀ n ∈ names, '"' ∉ n) {a rest out : Text} (ha : Blank a) {n : Nat}
    {vs : List Json} (h : readItems n (a ++ (objects key names ++ ']' :: rest)) = some (vs, out)) :
    ∃ ss, List.Forall₂ ReadAs names ss ∧ vs = ss.map (row key) ∧ out = rest := by
  induction names generalizing a n vs out with
  | nil => exact absurd rfl hne
  | cons name names ih =>
    obtain ⟨hname, hnames⟩ := List.forall_mem_cons.mp hnames
    have hskip : ∀ tail, skip (a ++ (entry key name ++ tail)) = entry key name ++ tail := by
      intro tail
      have hbrace : '\x7b' ∉ [' ', '\n', '\r', '\t'] := by decide
      rw [entry_append]
      exact skip_blank_cons ha hbrace _
    cases n with
    | zero => cases h
    | succ n =>
      cases names with
      | nil =>
        rw [objects, List.append_assoc, readItems, hskip] at h
        obtain ⟨⟨v, behind⟩, hv, h⟩ := Option.bind_eq_some_iff.mp h
        obtain ⟨s, hread, rfl, rfl⟩ := exists_of_readValue_entry (w := []) hkey hname
          (fun c hc => nomatch hc) hv
        obtain ⟨rfl, rfl⟩ := Prod.mk.inj (Option.some.inj h)
        exact ⟨[s], List.Forall₂.cons hread .nil, rfl, rfl⟩
      | cons name' names =>
        have hblank : Blank ['\n'] := by decide
        rw [objects_cons key name (List.cons_ne_nil _ _), List.append_assoc, readItems, hskip] at h
        obtain ⟨⟨v, behind⟩, hv, h⟩ := Option.bind_eq_some_iff.mp h
        obtain ⟨s, hread, rfl, rfl⟩ := exists_of_readValue_entry (w := [',']) hkey hname
          (List.forall_mem_singleton.mpr rfl) hv
        obtain ⟨⟨vs', rest'⟩, hvs, hitems⟩ := Option.bind_eq_some_iff.mp h
        obtain ⟨ss, hss, rfl, rfl⟩ := ih (List.cons_ne_nil _ _) hnames hblank hvs
        obtain ⟨rfl, rfl⟩ := Prod.mk.inj (Option.some.inj hitems)
        exact ⟨s :: ss, List.Forall₂.cons hread hss, rfl, rfl⟩

/-- A listing that is read has an object for each name. -/
theorem exists_of_loads {key : Text} (hkey : Plain key) {names : List Text} (hne : names ≠ [])
    (hnames : ∀ n ∈ names, '"' ∉ n) {v : Json} (h : loads (listing key names) = some v) :
    ∃ ss, List.Forall₂ ReadAs names ss ∧ v = document key ss := by
  have hbrace : ∀ t, (skip ('\n' :: ' ' :: '"' :: t)).head? ≠ some '\x7d' := by
    intro t
    change some '"' ≠ some '\x7d'
    decide
  have hbracket : (skip ('\n' :: '\n' :: (objects key names ++
      [']', '\n', '\x7d', '\n']))).head? ≠ some ']' := by
    obtain ⟨name, names, rfl⟩ := List.exists_cons_of_ne_nil hne
    have hentry : ∀ t, (skip ('\n' :: '\n' :: (entry key name ++ t))).head? ≠ some ']' := by
      intro t
      rw [entry_append]
      change some '\x7b' ≠ some ']'
      decide
    cases names with
    | nil =>
      rw [objects, List.append_assoc]
      exact hentry _
    | cons name' names =>
      rw [objects_cons key name (List.cons_ne_nil _ _), List.append_assoc]
      exact hentry _
  have hskip : skip (listing key names) = listing key names := by
    rw [listing_eq]
    rfl
  obtain ⟨n, hn⟩ : ∃ n, (listing key names).length = n + 3 := by
    rw [listing_eq]
    exact ⟨_, rfl⟩
  rw [loads, hskip, hn, listing_eq, readValue_brace (hbrace _), readMembers_key plain_data rfl] at h
  have harray : skip ('[' :: '\n' :: '\n' :: (objects key names ++ [']', '\n', '\x7d', '\n'])) =
      '[' :: '\n' :: '\n' :: (objects key names ++ [']', '\n', '\x7d', '\n']) := rfl
  rw [harray, readValue_bracket hbracket] at h
  cases hitems : readItems n ('\n' :: '\n' :: (objects key names ++ [']', '\n', '\x7d', '\n'])) with
  | none =>
    rw [hitems] at h
    cases h
  | some r =>
    obtain ⟨vs, out⟩ := r
    have hblank : Blank ['\n', '\n'] := by decide
    obtain ⟨ss, hss, rfl, rfl⟩ := exists_of_readItems_objects hkey hne hnames hblank hitems
    rw [hitems] at h
    exact ⟨ss, hss, (Option.some.inj h).symm⟩

/-- The names of a document. -/
theorem lowLevelDiscovery_of_loads {key t : Text} {ss : List Text}
    (h : loads t = some (document key ss)) :
    lowLevelDiscovery t [key] = some (ss.map fun s => [s]) := by
  have hdata : (document key ss).get "data".toList = some (.arr (ss.map (row key))) := rfl
  have hname : ∀ s, macroValue (row key s) key = some s := by
    intro s
    have hnodup : ([(key, Json.str s)].map Prod.fst).Nodup := List.nodup_singleton _
    have hget : (row key s).get key = some (.str s) :=
      get_eq_some_of_mem hnodup (List.mem_singleton_self _)
    rw [macroValue, hget]
  rw [lowLevelDiscovery, h, Option.bind_some, hdata]
  refine mapM_map_eq_some fun s _ => ?_
  rw [List.mapM_cons, hname]
  rfl

/-- The names that are found are strings of the document. -/
theorem marks_le_of_lowLevelDiscovery {key t : Text} {names : List Text}
    (h : lowLevelDiscovery t [key] = some (names.map fun n => [n])) :
    marks names ≤ t.count '\\' := by
  have hrows : ∀ (rows : List Json) (names : List Text),
      (rows.mapM fun row => [key].mapM (macroValue row)) = some (names.map fun n => [n]) →
        names.Sublist (stringsItems rows) := by
    intro rows
    induction rows with
    | nil =>
      intro names h
      rw [List.map_eq_nil_iff.mp (Option.some.inj h).symm]
      exact List.Sublist.refl _
    | cons row rows ih =>
      intro names h
      simp only [List.mapM_cons, List.mapM_nil, Option.bind_eq_bind, Option.pure_def,
        Option.bind_eq_some_iff, Option.some.injEq] at h
      obtain ⟨_, ⟨s, hs, _, rfl, rfl⟩, yss, hyss, heq⟩ := h
      cases names with
      | nil => cases heq
      | cons name names =>
        obtain ⟨hname, hnames⟩ := List.cons.inj heq
        obtain ⟨rfl, -⟩ := List.cons.inj hname
        rw [macroValue] at hs
        rw [stringsItems]
        split at hs
        · next s' hget =>
          obtain rfl := Option.some.inj hs
          exact (strings_sublist_of_get hget).append (ih names (hyss.trans (congrArg some hnames)))
        · cases hs
  unfold lowLevelDiscovery at h
  cases hv : loads t with
  | none =>
    rw [hv] at h
    cases h
  | some v =>
    rw [hv, Option.bind_some] at h
    cases hget : v.get "data".toList with
    | none =>
      rw [hget] at h
      cases h
    | some w =>
      rw [hget] at h
      cases w with
      | arr rows =>
        have hsub := (hrows rows names h).trans (strings_sublist_of_get hget)
        exact (hsub.flatten.countP_le).trans (loads_marks hv)
      | lit | num | neg | str | obj => cases h

/-- Every backslash of a listing stands in a name. -/
theorem count_listing {key : Text} (hkey : Plain key) (names : List Text) :
    (listing key names).count '\\' = names.flatten.count '\\' := by
  have hnone : '\\' ∉ key := fun h => absurd (hkey _ h).1 (by decide)
  have hentry : ∀ name, (entry key name).count '\\' = name.count '\\' := by
    intro name
    have hbegin : "\x7b \"".toList.count '\\' = 0 := by decide
    have hmiddle : "\" : \"".toList.count '\\' = 0 := by decide
    have hend : "\" \x7d".toList.count '\\' = 0 := by decide
    rw [entry, List.count_append, List.count_append, List.count_append, List.count_append, hbegin,
      hmiddle, hend, List.count_eq_zero_of_not_mem hnone, Nat.add_zero, Nat.zero_add, Nat.zero_add,
      Nat.zero_add]
  have hlines : ∀ names : List Text, ∀ count idx,
      (lines key count idx names).count '\\' = names.flatten.count '\\' := by
    intro names
    induction names with
    | nil => exact fun _ _ => rfl
    | cons name names ih =>
      intro count idx
      have hcomma : [',', '\n'].count '\\' = 0 := by decide
      have hbreak : ['\n'].count '\\' = 0 := by decide
      rw [lines, List.count_append, ih, List.flatten_cons, List.count_append]
      split_ifs
      · rw [List.count_append, hentry, hcomma, Nat.add_zero]
      · rw [List.count_append, hentry, hbreak, Nat.add_zero]
  have hopening : opening.count '\\' = 0 := by decide
  have hclosing : closing.count '\\' = 0 := by decide
  rw [listing, List.count_append, List.count_append, hlines, hopening, hclosing, Nat.zero_add,
    Nat.add_zero]

/-- A listing tells the names exactly if none of them has a quotation mark, a backslash or a
control character. -/
theorem lowLevelDiscovery_listing_iff {key : Text} (hkey : Plain key) (names : List Text) :
    lowLevelDiscovery (listing key names) [key] = some (names.map fun n => [n]) ↔
      ∀ n ∈ names, Plain n := by
  constructor
  · intro h
    by_cases hne : names = []
    · subst hne
      exact fun n hn => absurd hn List.not_mem_nil
    have hmarks := marks_le_of_lowLevelDiscovery h
    rw [count_listing hkey, marks, countP_isMark] at hmarks
    have hquote : ∀ n ∈ names, '"' ∉ n := by
      intro n hn hmem
      have hpos := List.count_pos_iff.mpr (List.mem_flatten_of_mem hn hmem)
      omega
    cases hv : loads (listing key names) with
    | none =>
      rw [lowLevelDiscovery, hv] at h
      cases h
    | some v =>
      obtain ⟨ss, hss, rfl⟩ := exists_of_loads hkey hne hquote hv
      rw [lowLevelDiscovery_of_loads hv, Option.some.injEq] at h
      have hinjective : Function.Injective fun s : Text => [s] := fun s t h => (List.cons.inj h).1
      obtain rfl := List.map_injective_iff.mpr hinjective h
      intro n hn
      exact ((List.forall₂_same.mp hss n hn).2 le_rfl).2
  · intro h
    exact lowLevelDiscovery_of_loads (loads_listing hkey h)

theorem plain_apptasks : Plain apptasks := by
  have hall : ∀ c ∈ apptasks, isMark c = false ∧ 32 ≤ c.toNat := by decide
  exact hall

theorem plain_version : Plain version := by
  have hall : ∀ c ∈ version, isMark c = false ∧ 32 ≤ c.toNat := by decide
  exact hall

end OpsScripts.Zabbix.Listing
