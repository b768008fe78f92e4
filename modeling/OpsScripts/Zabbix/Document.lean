import OpsScripts.Core.JsonStrings
import OpsScripts.Core.Shell
import Mathlib.Data.List.Flatten
import Mathlib.Data.List.Forall2

/-!
# The discovery document

The scripts print the array of discovered names from two passes over the same lines: a loop with
`read` prints each value one round late, so not the last one, and `tail -1` prints the last line
as it is.
-/

namespace OpsScripts.Zabbix

open Shell

/-! ## The document -/

/-- The lines up to the array. -/
def opening : Text := "\x7b\n    \"data\":[\n".toList

/-- The lines behind the array. -/
def closing : Text := "    ]\n\x7d\n".toList

/-- The blanks in front of an element. -/
def indentation : Text := "        ".toList

/-- The name of the macro. -/
def macroName : Text := "\x7b#NAME\x7d".toList

/-- `{ "{#NAME}":"$DOMAIN" }`; the comma behind it is written by the loop. -/
def ELEMENT (DOMAIN : Text) : Text :=
  "\x7b \"".toList ++ (macroName ++ ("\":\"".toList ++ (DOMAIN ++ "\" \x7d".toList)))

/-- The loop over the values of `read`, which prints the value of the round before. -/
def loop : Bool → Text → List Text → Text
  | _, _, [] => []
  | true, _, line :: lines => loop false line lines
  | false, DOMAIN, line :: lines =>
    indentation ++ (ELEMENT DOMAIN ++ (",\n".toList ++ loop false line lines))

/-- `tail -1` in a command substitution. -/
def tail1 (lines : List Text) : Text := lines.getLast?.getD []

/-- What is printed for the lines of a pipeline. -/
def Discover (lines : List Text) : Text :=
  opening ++ (loop true [] (readLines lines) ++
    (indentation ++ (ELEMENT (tail1 lines) ++ '\n' :: closing)))

/-- An object with a discovered name. -/
def item (name : Text) : Json := .obj [(macroName, .str name)]

/-- The document of some names. -/
def document (names : List Text) : Json := .obj [("data".toList, .arr (names.map item))]

/-- The names of a document. -/
def discovered (v : Json) : List Text :=
  match v.get "data".toList with
  | some (.arr items) => items.filterMap fun i =>
    match i.get macroName with
    | some (.str name) => some name
    | _ => none
  | _ => []

/-! ## The two passes -/

/-- What stands between the quotation marks of the elements. -/
def entries (lines : List Text) : List Text := (readLines lines).dropLast ++ [tail1 lines]

/-- The elements from a list of texts on. -/
def elements : List Text → Text
  | [] => closing
  | [t] => indentation ++ (ELEMENT t ++ '\n' :: closing)
  | t :: ts => indentation ++ (ELEMENT t ++ (',' :: '\n' :: elements ts))

theorem elements_cons (t : Text) {ts : List Text} (h : ts ≠ []) :
    elements (t :: ts) = indentation ++ (ELEMENT t ++ (',' :: '\n' :: elements ts)) := by
  rw [elements]
  exact h

/-- The last value of `read` is replaced by the last line. -/
theorem Discover_eq (lines : List Text) : Discover lines = opening ++ elements (entries lines) := by
  have hloop : ∀ (values : List Text) (DOMAIN last : Text),
      loop false DOMAIN values ++ (indentation ++ (ELEMENT last ++ '\n' :: closing)) =
        elements ((DOMAIN :: values).dropLast ++ [last]) := by
    intro values
    induction values with
    | nil => exact fun DOMAIN last => rfl
    | cons value values ih =>
      intro DOMAIN last
      have hne : (value :: values).dropLast ++ [last] ≠ [] := by simp
      rw [loop, List.append_assoc, List.append_assoc, List.append_assoc, ih,
        List.dropLast_cons_cons, List.cons_append, elements_cons DOMAIN hne]
      rfl
  rw [Discover, entries]
  cases readLines lines with
  | nil => rfl
  | cons value values => rw [loop, hloop]

/-- No pass adds a character. -/
theorem entries_sublist (lines : List Text) : (entries lines).flatten.Sublist lines.flatten := by
  induction lines using List.reverseRecOn with
  | nil => exact List.Sublist.refl _
  | append_singleton lines last =>
    have hread := dropLast_readFrom_sublist [] lines last
    rw [List.map_nil, List.nil_append] at hread
    rw [entries, tail1, List.getLast?_concat, Option.getD_some, List.flatten_append,
      List.flatten_append]
    exact hread.append (List.Sublist.refl _)

/-- Both passes agree with the lines if `read` changes none of those before the last one. -/
theorem entries_eq {lines : List Text} (hne : lines ≠ []) (hkept : ∀ l ∈ lines.dropLast, Kept l)
    (hlast : '\\' ∉ tail1 lines) : entries lines = lines := by
  obtain ⟨ls, last, rfl⟩ := (List.eq_nil_or_concat' lines).resolve_left hne
  rw [List.dropLast_concat] at hkept
  rw [tail1, List.getLast?_concat, Option.getD_some] at hlast
  have hone : (readLines [last]).dropLast = [] := by
    rw [readLines, readFrom, unescape_of_plain hlast]
    rfl
  have hread : readLines [last] ≠ [] := by
    rw [readLines, readFrom, unescape_of_plain hlast]
    exact List.cons_ne_nil _ _
  rw [entries, readLines_append hkept, List.dropLast_append_of_ne_nil hread, hone, List.append_nil,
    tail1, List.getLast?_concat, Option.getD_some]

/-! ## Reading the document -/

section Reading

open Json

/-- An element up to the quotation mark in front of the name. -/
theorem ELEMENT_append (t rest : Text) : ELEMENT t ++ rest =
    '\x7b' :: ' ' :: '"' :: (macroName ++ '"' :: ':' :: '"' ::
      (t ++ '"' :: ' ' :: '\x7d' :: rest)) := by
  simp only [ELEMENT, List.append_assoc]
  rfl

theorem plain_macroName : Plain macroName := by
  have hall : ∀ c ∈ macroName, isMark c = false ∧ 32 ≤ c.toNat := by decide
  exact hall

/-- An object begins with its key. -/
theorem head?_skip_ELEMENT (x : Text) :
    (skip (' ' :: '"' :: (macroName ++ '"' :: ':' :: '"' :: x))).head? ≠ some '\x7d' := by
  change some '"' ≠ some '\x7d'
  decide

/-- An element is read if its name is. -/
theorem readValue_ELEMENT {n : Nat} {t s rest : Text}
    (h : readString (t ++ '"' :: ' ' :: '\x7d' :: rest).length
      (t ++ '"' :: ' ' :: '\x7d' :: rest) = some (s, ' ' :: '\x7d' :: rest)) :
    readValue (n + 3) (ELEMENT t ++ rest) = some (item s, rest) := by
  have hstring : readValue (n + 1) ('"' :: (t ++ '"' :: ' ' :: '\x7d' :: rest)) =
      some (str s, ' ' :: '\x7d' :: rest) := by
    rw [readValue, if_pos rfl, h]
    rfl
  have hquote : skip ('"' :: (t ++ '"' :: ' ' :: '\x7d' :: rest)) =
      '"' :: (t ++ '"' :: ' ' :: '\x7d' :: rest) := rfl
  rw [ELEMENT_append, readValue_brace (head?_skip_ELEMENT _), readMembers_key plain_macroName rfl,
    hquote, hstring]
  rfl

/-- If an element is read, its name is, and up to the quotation mark behind it. -/
theorem exists_of_readValue_ELEMENT {n : Nat} {t w rest out : Text} {v : Json} (ht : '"' ∉ t)
    (hw : ∀ c ∈ w, isMark c = false)
    (h : readValue n (ELEMENT t ++ (w ++ '\n' :: rest)) = some (v, out)) :
    ∃ s, ReadAs t s ∧ v = item s ∧ out = w ++ '\n' :: rest := by
  have hbehind : ∀ c ∈ ' ' :: '\x7d' :: w, isMark c = false :=
    List.forall_mem_cons.mpr ⟨rfl, List.forall_mem_cons.mpr ⟨rfl, hw⟩⟩
  rw [ELEMENT_append] at h
  cases n with
  | zero => cases h
  | succ n =>
    rw [readValue_brace (head?_skip_ELEMENT _)] at h
    obtain ⟨⟨ms, out'⟩, hms, heq⟩ := Option.map_eq_some_iff.mp h
    obtain ⟨rfl, rfl⟩ := Prod.mk.inj heq
    cases n with
    | zero => cases hms
    | succ n =>
      rw [readMembers_key plain_macroName rfl] at hms
      obtain ⟨⟨v, behind⟩, hv, hms⟩ := Option.bind_eq_some_iff.mp hms
      cases n with
      | zero =>
        rw [readValue] at hv
        cases hv
      | succ n =>
        have hquote : skip ('"' :: (t ++ '"' :: ' ' :: '\x7d' :: (w ++ '\n' :: rest))) =
            '"' :: (t ++ '"' :: ' ' :: '\x7d' :: (w ++ '\n' :: rest)) := rfl
        rw [hquote, readValue, if_pos rfl] at hv
        simp only [Option.bind_eq_bind, Option.bind_eq_some_iff, Option.some.injEq,
          Prod.mk.injEq] at hv
        obtain ⟨⟨s, behind'⟩, hs, rfl, rfl⟩ := hv
        obtain ⟨hrest, hread⟩ := readString_line (w := ' ' :: '\x7d' :: w) ht hbehind hs
        dsimp only at hrest hms
        rw [hrest] at hms
        have hclose : behindMember (n + 1) macroName (str s, ' ' :: '\x7d' :: w ++ '\n' :: rest) =
            some ([(macroName, str s)], w ++ '\n' :: rest) := rfl
        rw [hclose] at hms
        obtain ⟨rfl, rfl⟩ := Prod.mk.inj (Option.some.inj hms)
        exact ⟨s, hread, rfl, rfl⟩

/-- The closing lines behind the bracket of the array. -/
def behindArray : Text := "\n\x7d\n".toList

theorem skip_elements (t rest : Text) :
    skip ('\n' :: (indentation ++ (ELEMENT t ++ rest))) = ELEMENT t ++ rest := rfl

/-- The elements are read if their names need no escapes. -/
theorem readItems_elements {ts : List Text} (hne : ts ≠ []) (hplain : ∀ t ∈ ts, Plain t) {n : Nat}
    (hn : (elements ts).length ≤ n) :
    readItems n ('\n' :: elements ts) = some (ts.map item, behindArray) := by
  induction ts generalizing n with
  | nil => exact absurd rfl hne
  | cons t ts ih =>
    obtain ⟨ht, hts⟩ := List.forall_mem_cons.mp hplain
    have hread : ∀ {n rest}, readValue (n + 3) (ELEMENT t ++ rest) = some (item t, rest) := by
      intro n rest
      refine readValue_ELEMENT (readString_plain ht ?_ _)
      rw [List.length_append, List.length_cons]
      omega
    have hindentation : indentation.length = 8 := rfl
    cases ts with
    | nil =>
      rw [elements, List.length_append, hindentation] at hn
      obtain ⟨n, rfl⟩ : ∃ m, n = m + 4 := ⟨n - 4, by omega⟩
      rw [elements, readItems, skip_elements, hread]
      rfl
    | cons t' ts =>
      have hne' : t' :: ts ≠ [] := List.cons_ne_nil t' ts
      rw [elements_cons t hne', List.length_append, hindentation, List.length_append,
        List.length_cons, List.length_cons] at hn
      obtain ⟨n, rfl⟩ : ∃ m, n = m + 4 := ⟨n - 4, by omega⟩
      have hcomma : skip (',' :: '\n' :: elements (t' :: ts)) =
          ',' :: '\n' :: elements (t' :: ts) := rfl
      have hrest := ih hne' hts (n := n + 3) (by omega)
      rw [elements_cons t hne', readItems, skip_elements, hread]
      simp only [Option.bind_eq_bind, Option.bind_some, hcomma, hrest]
      rfl

/-- If the elements are read, each name is. -/
theorem exists_of_readItems {ts : List Text} (hne : ts ≠ []) (hquote : ∀ t ∈ ts, '"' ∉ t) {n : Nat}
    {vs : List Json} {out : Text} (h : readItems n ('\n' :: elements ts) = some (vs, out)) :
    ∃ ss, List.Forall₂ ReadAs ts ss ∧ vs = ss.map item ∧ out = behindArray := by
  induction ts generalizing n vs out with
  | nil => exact absurd rfl hne
  | cons t ts ih =>
    obtain ⟨ht, hts⟩ := List.forall_mem_cons.mp hquote
    cases n with
    | zero => cases h
    | succ n =>
      cases ts with
      | nil =>
        rw [elements, readItems, skip_elements] at h
        obtain ⟨⟨v, rest⟩, hv, h⟩ := Option.bind_eq_some_iff.mp h
        obtain ⟨s, hread, rfl, rfl⟩ := exists_of_readValue_ELEMENT (w := []) ht
          (fun c hc => nomatch hc) hv
        obtain ⟨rfl, rfl⟩ := Prod.mk.inj (Option.some.inj h)
        exact ⟨[s], List.Forall₂.cons hread .nil, rfl, rfl⟩
      | cons t' ts =>
        have hne' : t' :: ts ≠ [] := List.cons_ne_nil t' ts
        rw [elements_cons t hne', readItems, skip_elements] at h
        obtain ⟨⟨v, rest⟩, hv, h⟩ := Option.bind_eq_some_iff.mp h
        obtain ⟨s, hread, rfl, rfl⟩ := exists_of_readValue_ELEMENT (w := [',']) ht
          (List.forall_mem_singleton.mpr rfl) hv
        obtain ⟨⟨vs', rest'⟩, hvs, h⟩ := Option.bind_eq_some_iff.mp h
        obtain ⟨ss, hss, rfl, rfl⟩ := ih hne' hts hvs
        obtain ⟨rfl, rfl⟩ := Prod.mk.inj (Option.some.inj h)
        exact ⟨s :: ss, List.Forall₂.cons hread hss, rfl, rfl⟩

theorem head?_skip_elements {ts : List Text} (hne : ts ≠ []) :
    (skip ('\n' :: elements ts)).head? ≠ some ']' := by
  have hopen : ∀ t rest,
      (skip ('\n' :: (indentation ++ (ELEMENT t ++ rest)))).head? ≠ some ']' := by
    intro t rest
    change some '\x7b' ≠ some ']'
    decide
  cases ts with
  | nil => exact absurd rfl hne
  | cons t ts =>
    cases ts with
    | nil => exact hopen t _
    | cons t' ts =>
      rw [elements_cons t (List.cons_ne_nil t' ts)]
      exact hopen t _

/-- The document is read if its elements are. -/
theorem loads_elements {ts : List Text} (hne : ts ≠ []) : ∃ n, (elements ts).length ≤ n ∧
    (readItems n ('\n' :: elements ts) = none → loads (opening ++ elements ts) = none) ∧
    ∀ vs, readItems n ('\n' :: elements ts) = some (vs, behindArray) →
      loads (opening ++ elements ts) = some (obj [("data".toList, arr vs)]) := by
  have hdata : Plain "data".toList := by
    have hall : ∀ c ∈ "data".toList, isMark c = false ∧ 32 ≤ c.toNat := by decide
    exact hall
  have hlength : (opening ++ elements ts).length = (elements ts).length + 12 + 3 := by
    rw [List.length_append, Nat.add_comm]
    rfl
  have hopening : opening ++ elements ts =
      '\x7b' :: '\n' :: ' ' :: ' ' :: ' ' :: ' ' :: '"' ::
        ("data".toList ++ '"' :: ':' :: '[' :: '\n' :: elements ts) := rfl
  have hskip : skip (opening ++ elements ts) = opening ++ elements ts := rfl
  have hbrace : (skip ('\n' :: ' ' :: ' ' :: ' ' :: ' ' :: '"' ::
      ("data".toList ++ '"' :: ':' :: '[' :: '\n' :: elements ts))).head? ≠ some '\x7d' := by
    change some '"' ≠ some '\x7d'
    decide
  have hbracket : skip ('[' :: '\n' :: elements ts) = '[' :: '\n' :: elements ts := rfl
  have hread : readValue (opening ++ elements ts).length (skip (opening ++ elements ts)) =
      (((readItems ((elements ts).length + 12) ('\n' :: elements ts)).map fun r =>
        (arr r.1, r.2)).bind (behindMember ((elements ts).length + 12 + 1) "data".toList)).map
          fun r => (obj (members r.1), r.2) := by
    rw [hlength, hskip, hopening, readValue_brace hbrace, readMembers_key hdata rfl, hbracket,
      readValue_bracket (head?_skip_elements hne)]
  refine ⟨(elements ts).length + 12, Nat.le_add_right _ _, fun hnone => ?_, fun vs hvs => ?_⟩
  · rw [loads, hread, hnone]
    rfl
  · rw [loads, hread, hvs]
    rfl

/-- Names that need no escapes are written and read as they are. -/
theorem loads_plain {ts : List Text} (hne : ts ≠ []) (hplain : ∀ t ∈ ts, Plain t) :
    loads (opening ++ elements ts) = some (document ts) := by
  obtain ⟨n, hn, -, hsome⟩ := loads_elements hne
  exact hsome _ (readItems_elements hne hplain hn)

/-- A document that can be read has an object for each element. -/
theorem exists_of_loads {ts : List Text} (hne : ts ≠ []) (hquote : ∀ t ∈ ts, '"' ∉ t) {v : Json}
    (h : loads (opening ++ elements ts) = some v) :
    ∃ ss, List.Forall₂ ReadAs ts ss ∧ v = document ss := by
  obtain ⟨n, -, hnone, hsome⟩ := loads_elements hne
  cases hitems : readItems n ('\n' :: elements ts) with
  | none =>
    rw [hnone hitems] at h
    cases h
  | some r =>
    obtain ⟨vs, out⟩ := r
    obtain ⟨ss, hss, rfl, rfl⟩ := exists_of_readItems hne hquote hitems
    rw [hsome _ hitems] at h
    exact ⟨ss, hss, (Option.some.inj h).symm⟩

theorem discovered_document (ts : List Text) : discovered (document ts) = ts := by
  have hitems : discovered (document ts) = (ts.map item).filterMap fun i =>
      match i.get macroName with
      | some (.str name) => some name
      | _ => none := rfl
  rw [hitems, List.filterMap_map]
  exact List.filterMap_some

/-- The texts of the elements are never empty as a list. -/
theorem entries_ne_nil (lines : List Text) : entries lines ≠ [] :=
  List.append_ne_nil_of_right_ne_nil _ (List.cons_ne_nil _ _)

/-- Nothing is lost if no line needs escapes and `read` changes none before the last one. -/
theorem loads_Discover {lines : List Text} (hne : lines ≠ []) (hplain : ∀ l ∈ lines, Plain l)
    (hkept : ∀ l ∈ lines.dropLast, Kept l) : loads (Discover lines) = some (document lines) := by
  have hlast : '\\' ∉ tail1 lines := by
    intro hmem
    rw [tail1] at hmem
    cases hlines : lines.getLast? with
    | none =>
      rw [hlines] at hmem
      cases hmem
    | some l =>
      rw [hlines] at hmem
      exact absurd (hplain l (List.mem_of_getLast? hlines) _ hmem).1 (by decide)
  rw [Discover_eq, entries_eq hne hkept hlast, loads_plain hne hplain]

/-- Without lines there is an element with an empty name. -/
theorem loads_Discover_nil : loads (Discover []) = some (document [[]]) := by
  have hentries : entries [] = [[]] := rfl
  have hplain : ∀ t ∈ [([] : Text)], Plain t :=
    List.forall_mem_singleton.mpr fun c hc => nomatch hc
  rw [Discover_eq, hentries, loads_plain (List.cons_ne_nil _ _) hplain]

theorem readAs_flatten {ts ss : List Text} (h : List.Forall₂ ReadAs ts ss) :
    ss.flatten.length ≤ ts.flatten.length ∧
      (ts.flatten.length ≤ ss.flatten.length → ∀ t ∈ ts, Plain t) := by
  induction h with
  | nil => exact ⟨le_rfl, fun _ t ht => nomatch ht⟩
  | @cons t s ts ss hread _ ih =>
    have hle := hread.1
    have hrest := ih.1
    rw [List.flatten_cons, List.flatten_cons, List.length_append, List.length_append]
    refine ⟨by omega, fun hge => List.forall_mem_cons.mpr ⟨?_, ih.2 (by omega)⟩⟩
    exact (hread.2 (by omega)).2

/-- No characters are discovered that the lines do not have. -/
theorem length_discovered_le {lines : List Text} {v : Json}
    (hquote : ∀ t ∈ entries lines, '"' ∉ t) (hv : loads (Discover lines) = some v) :
    (discovered v).flatten.length ≤ lines.flatten.length := by
  rw [Discover_eq] at hv
  obtain ⟨ss, hread, rfl⟩ := exists_of_loads (entries_ne_nil lines) hquote hv
  rw [discovered_document]
  exact (readAs_flatten hread).1.trans (entries_sublist lines).length_le

/-- If the discovered names have all characters of the lines, nothing was lost. -/
theorem plain_of_length {lines : List Text} {v : Json} (hne : lines ≠ [])
    (hquote : ∀ t ∈ entries lines, '"' ∉ t) (hv : loads (Discover lines) = some v)
    (hlength : lines.flatten.length ≤ (discovered v).flatten.length) :
    (∀ l ∈ lines, Plain l) ∧ ∀ l ∈ lines.dropLast, Kept l := by
  rw [Discover_eq] at hv
  obtain ⟨ss, hread, rfl⟩ := exists_of_loads (entries_ne_nil lines) hquote hv
  rw [discovered_document] at hlength
  obtain ⟨hle, hplain⟩ := readAs_flatten hread
  have hplain := hplain ((entries_sublist lines).length_le.trans hlength)
  have hkept : ∀ l ∈ lines.dropLast, Kept l := by
    obtain ⟨ls, last, rfl⟩ := (List.eq_nil_or_concat' lines).resolve_left hne
    rw [List.dropLast_concat]
    have hge := hlength.trans hle
    rw [entries, tail1, List.getLast?_concat, Option.getD_some] at hge
    simp only [List.flatten_append, List.length_append] at hge
    have hfront : ls.flatten.length ≤ (readLines (ls ++ [last])).dropLast.flatten.length := by
      omega
    exact kept_of_length hfront
  have hlast : '\\' ∉ tail1 lines := by
    intro hmem
    have hentry : tail1 lines ∈ entries lines := List.mem_append_right _ (List.mem_singleton_self _)
    exact absurd (hplain _ hentry _ hmem).1 (by decide)
  rw [entries_eq hne hkept hlast] at hplain
  exact ⟨hplain, hkept⟩

/-- Every backslash of the document stands in an element. -/
theorem count_Discover (lines : List Text) :
    (Discover lines).count '\\' = (entries lines).flatten.count '\\' := by
  have hopening : opening.count '\\' = 0 := by decide
  have hclosing : closing.count '\\' = 0 := by decide
  have hindentation : indentation.count '\\' = 0 := by decide
  have helement : ∀ t, (ELEMENT t).count '\\' = t.count '\\' := by
    intro t
    have hbegin : ("\x7b \"".toList ++ (macroName ++ "\":\"".toList)).count '\\' = 0 := by decide
    have hend : "\" \x7d".toList.count '\\' = 0 := by decide
    have hsplit : ELEMENT t = ("\x7b \"".toList ++ (macroName ++ "\":\"".toList)) ++
        (t ++ "\" \x7d".toList) := by
      simp only [ELEMENT, List.append_assoc]
    rw [hsplit, List.count_append, hbegin, List.count_append, hend, Nat.zero_add, Nat.add_zero]
  have helements : ∀ ts, (elements ts).count '\\' = ts.flatten.count '\\' := by
    intro ts
    induction ts with
    | nil => exact hclosing
    | cons t ts ih =>
      cases ts with
      | nil =>
        rw [elements, List.count_append, List.count_append, hindentation, helement,
          List.count_cons_of_ne (by decide), hclosing, List.flatten_singleton]
        omega
      | cons t' ts =>
        rw [elements_cons t (List.cons_ne_nil t' ts), List.count_append, List.count_append,
          hindentation, helement, List.count_cons_of_ne (by decide),
          List.count_cons_of_ne (by decide), ih, List.flatten_cons (l := t), List.count_append]
        omega
  rw [Discover_eq, List.count_append, hopening, Nat.zero_add, helements]

/-- The discovered names are among the strings of a value. -/
theorem marks_discovered_le (v : Json) : marks (discovered v) ≤ marks (strings v) := by
  have hitems : ∀ items : List Json, (items.filterMap fun i =>
      match i.get macroName with
      | some (.str name) => some name
      | _ => none).Sublist (stringsItems items) := by
    intro items
    induction items with
    | nil => exact List.Sublist.refl _
    | cons i items ih =>
      rw [List.filterMap_cons, stringsItems]
      cases hi : i.get macroName with
      | none => exact ih.trans (List.sublist_append_right _ _)
      | some w =>
        cases w with
        | str name => exact (strings_sublist_of_get hi).append ih
        | lit | num | neg | arr | obj => exact ih.trans (List.sublist_append_right _ _)
  have hsub : (discovered v).Sublist (strings v) := by
    rw [discovered]
    split
    · next items hv => exact (hitems items).trans (strings_sublist_of_get hv)
    · exact List.nil_sublist _
  exact hsub.flatten.countP_le

end Reading

end OpsScripts.Zabbix
