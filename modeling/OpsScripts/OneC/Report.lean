import OpsScripts.Core.JsonRoundTrip
import OpsScripts.Core.Replacement

/-!
# The text of a list of objects

Each mode of the script collects its objects in a dictionary under the empty key,
prints it as JSON, cuts off the outer braces and removes every `"":`. What is left is
an array, except that no object at all leaves the empty text.
-/

namespace OpsScripts.OneC

/-- `datalic`: the key is there from the first object on. -/
def datalic (objects : List Json) : Json :=
  if objects.isEmpty then .obj [] else .obj [([], .arr objects)]

/-- `(json.dumps(datalic, sort_keys=True, indent=2))[1:-1].replace('"":',"")`. -/
def report (objects : List Json) : Text :=
  replace "\"\":".toList [] ((datalic objects).dumps.drop 1).dropLast

/-! ## Empty keys -/

/-- Reads on behind `q` quotation marks, of which only two count, and fails at a colon
behind two of them. -/
def scan (q : Nat) : Text → Option Nat
  | [] => some q
  | x :: t =>
    if x = '"' then scan (min 2 (q + 1)) t
    else if x = ':' ∧ q = 2 then none
    else scan 0 t

theorem scan_append (s t : Text) (q : Nat) :
    scan q (s ++ t) = (scan q s).bind fun r => scan r t := by
  induction s generalizing q with
  | nil => rfl
  | cons x s ih =>
    simp only [List.cons_append, scan, ih]
    split_ifs <;> rfl

theorem scan_cons {x : Char} (hquote : x ≠ '"') (hcolon : x ≠ ':') (q : Nat) (t : Text) :
    scan q (x :: t) = scan 0 t := by
  rw [scan, if_neg hquote, if_neg fun h => hcolon h.1]

/-- A text that is read to its end has no empty key in it. -/
theorem not_prefix_of_scan {s t : Text} {q : Nat} (h : (scan q (s ++ t)).isSome) :
    ¬"\"\":".toList <+: t := by
  rintro ⟨u, rfl⟩
  rw [scan_append] at h
  obtain ⟨r, hr⟩ := Option.isSome_iff_exists.mp h
  obtain ⟨p, -, hp⟩ := Option.bind_eq_some_iff.mp hr
  have htwo : min 2 (min 2 (p + 1) + 1) = 2 := by omega
  have hread : scan p ("\"\":".toList ++ u) = none := by
    change scan p ('"' :: '"' :: ':' :: u) = none
    simp only [scan, if_true, htwo, true_and]
    rfl
  rw [hread] at hp
  cases hp

/-- Such a text stays under the replacement. -/
theorem replace_of_scan {t : Text} {q : Nat} (h : (scan q t).isSome) :
    replace "\"\":".toList [] t = t := by
  refine replace_eq_self (by decide) [] (contains_eq_false_iff.mpr ?_)
  rintro ⟨u, v, rfl⟩
  rw [List.append_assoc] at h
  exact not_prefix_of_scan h (List.prefix_append _ v)

/-! ## Printed values -/

theorem scan_hexDigits (n q : Nat) : scan q (Json.hex4 n) = some 0 := by
  have hdigit : ∀ d < 16, d.digitChar ≠ '"' ∧ d.digitChar ≠ ':' := by decide
  have h := fun m => hdigit (m % 16) (Nat.mod_lt m (by decide))
  rw [Json.hex4, scan_cons (h _).1 (h _).2, scan_cons (h _).1 (h _).2, scan_cons (h _).1 (h _).2,
    scan_cons (h _).1 (h _).2, scan]

theorem scan_escapeUnit (n q : Nat) : scan q (Json.escapeUnit n) = some 0 := by
  rw [Json.escapeUnit, scan_cons (by decide) (by decide), scan_cons (by decide) (by decide),
    scan_hexDigits]

/-- An escaped character ends in a quotation mark exactly if it is one. -/
theorem scan_escape (x : Char) {q : Nat} (hq : q ≤ 1) :
    scan q (Json.escape x) = some (if x = '"' then 1 else 0) := by
  unfold Json.escape
  split_ifs with hquote hback hn hr ht hb hf hplain
  · rfl
  · rfl
  · rfl
  · rfl
  · rfl
  · rfl
  · rfl
  · have htwo : ¬(x = ':' ∧ q = 2) := by omega
    rw [scan, if_neg hquote, if_neg htwo, scan]
  · exact scan_escapeUnit _ q
  · rw [scan_append, scan_escapeUnit, Option.bind_some, scan_escapeUnit]

/-- An escaped text ends in a quotation mark exactly if it does itself. -/
theorem scan_flatMap_escape (t : Text) {q : Nat} (hq : q ≤ 1) :
    scan q (t.flatMap Json.escape) =
      some (t.getLast?.elim q fun x => if x = '"' then 1 else 0) := by
  induction t generalizing q with
  | nil => rfl
  | cons x t ih =>
    have hx : (if x = '"' then 1 else 0) ≤ 1 := by split_ifs <;> decide
    rw [List.flatMap_cons, scan_append, scan_escape x hq, Option.bind_some, ih hx,
      List.getLast?_cons]
    cases t.getLast? <;> rfl

theorem scan_quote (t : Text) : (scan 0 (Json.quote t)).isSome := by
  have hopen : scan 0 (Json.quote t) = scan 1 (t.flatMap Json.escape ++ ['"']) := rfl
  rw [hopen, scan_append, scan_flatMap_escape t le_rfl]
  rfl

theorem scan_toDigits (n : Nat) : scan 0 (Nat.toDigits 10 n) = some 0 := by
  have hdigits : ∀ t : Text, (∀ x ∈ t, x.isDigit = true) → scan 0 t = some 0 := by
    intro t ht
    induction t with
    | nil => rfl
    | cons x t ih =>
      have hx := ht x List.mem_cons_self
      rw [scan_cons (by rintro rfl; cases hx) (by rintro rfl; cases hx)]
      exact ih fun y hy => ht y (List.mem_cons_of_mem x hy)
  exact hdigits _ fun x hx => Nat.isDigit_of_mem_toDigits (by decide) (by decide) hx

theorem scan_newline (level q : Nat) : scan q (Json.newline level) = some 0 := by
  have hblanks : ∀ n, scan 0 (List.replicate n ' ') = some 0 := by
    intro n
    induction n with
    | zero => rfl
    | succ n ih => rw [List.replicate_succ, scan_cons (by decide) (by decide), ih]
  rw [Json.newline, scan_cons (by decide) (by decide), hblanks]

/-- A key that is neither empty nor ends in a quotation mark. -/
def plainKey (k : Text) : Bool := (scan 0 (Json.quote k ++ [':'])).isSome

/-- A list of such keys. -/
def PlainKeys (ks : List Text) : Prop := ∀ k ∈ ks, plainKey k = true

theorem scan_append_isSome {s t : Text} {q : Nat} (hs : (scan q s).isSome)
    (ht : ∀ r, (scan r t).isSome) : (scan q (s ++ t)).isSome := by
  obtain ⟨r, hr⟩ := Option.isSome_iff_exists.mp hs
  rw [scan_append, hr]
  exact ht r

theorem scan_comma (isLast : Bool) (q : Nat) : (scan q (Json.comma isLast)).isSome := by
  cases isLast <;> rfl

theorem scan_newline_append (level q : Nat) (t : Text) :
    scan q (Json.newline level ++ t) = scan 0 t := by
  rw [scan_append, scan_newline, Option.bind_some]

mutual

/-- A printed value with such keys has no empty key in it. -/
theorem scan_print (level : Nat) : ∀ {v : Json}, Json.AllKeys PlainKeys v →
    (scan 0 (Json.print level v)).isSome
  | .lit l, _ => by cases l <;> rfl
  | .num n, _ => by
    rw [Json.print, scan_toDigits]
    rfl
  | .neg n, _ => by
    rw [Json.print, scan_cons (by decide) (by decide), scan_toDigits]
    rfl
  | .str t, _ => by
    rw [Json.print]
    exact scan_quote t
  | .arr [], _ => rfl
  | .arr (v :: vs), h => by
    have hitems := fun q => scan_printItems (level + 1) (q := q) h
    rw [Json.print, scan_cons (by decide) (by decide), List.append_assoc]
    apply scan_append_isSome (hitems 0)
    intro r
    rw [scan_newline_append]
    rfl
  | .obj [], _ => rfl
  | .obj (m :: ms), h => by
    have hmembers := fun q => scan_printMembers (level + 1) (q := q) h.1 h.2
    rw [Json.print, scan_cons (by decide) (by decide), List.append_assoc]
    apply scan_append_isSome (hmembers 0)
    intro r
    rw [scan_newline_append]
    rfl

theorem scan_printItems (level : Nat) : ∀ {vs : List Json} {q : Nat},
    Json.AllKeysItems PlainKeys vs → (scan q (Json.printItems level vs)).isSome
  | [], _, _ => rfl
  | v :: vs, q, h => by
    rw [Json.printItems, List.append_assoc, List.append_assoc, scan_newline_append]
    apply scan_append_isSome (scan_print level h.1)
    intro r
    exact scan_append_isSome (scan_comma _ r) fun p => scan_printItems level h.2

theorem scan_printMembers (level : Nat) : ∀ {ms : List (Text × Json)} {q : Nat},
    PlainKeys (ms.map Prod.fst) → Json.AllKeysMembers PlainKeys ms →
    (scan q (Json.printMembers level ms)).isSome
  | [], _, _, _ => rfl
  | (k, v) :: ms, q, hkeys, h => by
    have hk : (scan 0 (Json.quote k ++ [':'])).isSome := hkeys k List.mem_cons_self
    have hsplit : ∀ t : Text,
        Json.quote k ++ ':' :: ' ' :: t = (Json.quote k ++ [':']) ++ ' ' :: t := by
      intro t
      rw [List.append_assoc, List.singleton_append]
    rw [Json.printMembers, List.append_assoc, List.append_assoc, List.append_assoc,
      scan_newline_append, List.cons_append, List.cons_append, hsplit]
    apply scan_append_isSome hk
    intro r
    rw [scan_cons (by decide) (by decide)]
    apply scan_append_isSome (scan_print level h.1)
    intro p
    refine scan_append_isSome (scan_comma _ p) fun o => ?_
    exact scan_printMembers level (fun k hk => hkeys k (List.mem_cons_of_mem _ hk)) h.2

end

/-! ## The report -/

/-- The empty key at the beginning is removed. -/
theorem replace_emptyKey (t : Text) :
    replace "\"\":".toList [] (Json.newline 1 ++ "\"\":".toList ++ t) =
      Json.newline 1 ++ replace "\"\":".toList [] t := by
  have hne : "\"\":".toList ≠ [] := by decide
  have hstart : Json.newline 1 ++ "\"\":".toList ++ t =
      ['\n', ' '] ++ ' ' :: ("\"\":".toList ++ t) := rfl
  rw [hstart, replace_append_cons hne [] _ _ (by decide), replace_append_left hne]
  rfl

/-- A dictionary with the empty key only. -/
theorem print_emptyKey (a : Json) : Json.print 0 (.obj [([], a)]) = '\x7b' :: ((Json.newline 1 ++
    "\"\":".toList ++ (' ' :: (Json.print 1 a ++ Json.newline 0))) ++ ['\x7d']) := by
  rw [Json.print, Json.printMembers, Json.printMembers]
  simp only [Json.comma, List.isEmpty_nil, if_true, List.append_nil, List.append_assoc,
    List.cons_append]
  rfl

/-- The dictionary of a list that is not empty, without its braces. -/
theorem dropLast_dumps {objects : List Json} (hne : objects ≠ []) :
    ((datalic objects).dumps.drop 1).dropLast = Json.newline 1 ++ "\"\":".toList ++
      (' ' :: (Json.print 1 (.arr (Json.sortItems objects)) ++ Json.newline 0)) := by
  rw [datalic, List.isEmpty_eq_false_iff.mpr hne]
  have hdumps := print_emptyKey (.arr (Json.sortItems objects))
  change Json.dumps (.obj [([], .arr objects)]) = _ at hdumps
  simp only [Bool.false_eq_true, if_false, hdumps, List.drop_succ_cons, List.drop_zero,
    List.dropLast_concat]

/-- The text of a list that is not empty: the array of its objects with sorted keys. -/
theorem report_of_ne_nil {objects : List Json} (hne : objects ≠ [])
    (hplain : Json.AllKeysItems PlainKeys objects) : report objects =
      (Json.newline 1 ++ [' ']) ++
        (Json.print 1 (.arr (Json.sortItems objects)) ++ Json.newline 0) := by
  have hsorted : Json.AllKeysItems PlainKeys (Json.sortItems objects) :=
    Json.allKeysItems_sortItems (fun _ _ hperm h k hk => h k (hperm.mem_iff.mpr hk)) hplain
  have hscan : (scan 0 (' ' :: (Json.print 1 (.arr (Json.sortItems objects)) ++
      Json.newline 0))).isSome := by
    rw [scan_cons (by decide) (by decide)]
    refine scan_append_isSome (scan_print 1 hsorted) fun r => ?_
    rw [scan_newline]
    rfl
  rw [report, dropLast_dumps hne, replace_emptyKey, replace_of_scan hscan, List.append_assoc,
    List.singleton_append]

/-- The text of a list is read back as the list of its objects with sorted keys. -/
theorem loads_report {objects : List Json} (hne : objects ≠ [])
    (hplain : Json.AllKeysItems PlainKeys objects)
    (hdistinct : Json.AllKeysItems List.Nodup objects) :
    Json.loads (report objects) = some (.arr (Json.sortItems objects)) := by
  have hsorted : Json.AllKeys List.Nodup (.arr (Json.sortItems objects)) :=
    Json.allKeysItems_sortItems (fun _ _ hperm => hperm.nodup_iff.mp) hdistinct
  rw [report_of_ne_nil hne hplain]
  apply Json.loads_print hsorted
  · intro t
    rw [List.append_assoc, Json.skip_newline]
    rfl
  · rfl
  · exact Json.ends_cons (by decide) _

/-- The empty text is no JSON. -/
theorem loads_report_nil : Json.loads (report []) = none := rfl

end OpsScripts.OneC
