import OpsScripts.Core.JsonText

/-!
# `nimble.py`

Each mode asks the storage for its objects and prints a row for each of them. The template of the
monitoring finds the rows of a mode, and reads an item of a row by its slot, that is by the place of
the row in the same document. All blanks are deleted from the text in between.
-/

namespace OpsScripts.Zabbix

open Json

/-! ## The script -/

/-- A step into an answer: `[key]` or `[index]`. -/
inductive Place where
  | key (k : String)
  | index (i : Nat)

/-- The value at a place; a missing one is an error. -/
def Place.take : Place → Json → Option Json
  | .key k, v => v.get k.toList
  | .index i, .arr vs => vs[i]?
  | .index _, _ => none

/-- What a column of a row is made from. -/
inductive Column where
  | slot
  | at (path : List Place)
  /-- `format(int(…)/1024/1024/1024/1024, '.2f')`. -/
  | terabytes (path : List Place)

/-- A mode: what is asked for, and the columns of its rows. -/
structure Mode where
  detail : String
  columns : List (String × Column)

/-- A field of an object. -/
def field (k : String) : Column := .at [.key k]

def disks : Mode where
  detail := "disks"
  columns := [("slot", .slot), ("arrayname", field "array_name"), ("type", field "type"),
    ("serial", field "serial"), ("model", field "model"), ("siza", .terabytes [.key "size"]),
    ("state", field "raid_state")]

def statusfc : Mode where
  detail := "fibre_channel_ports"
  columns := [("fcslot", .slot), ("fcarrayname", field "array_name_or_serial"),
    ("fccontr", field "controller_name"), ("fcportname", field "fc_port_name"),
    ("linkfcinfo", .at [.key "link_info", .key "link_speed"]),
    ("linkfcstatus", .at [.key "link_info", .key "link_status"])]

def discovernet : Mode where
  detail := "network_interfaces"
  columns := [("netslot", .slot), ("netarrayname", field "array_name_or_serial"),
    ("netcontr", field "controller_name"), ("netportname", field "name"),
    ("linkspeed", field "link_speed"), ("linkstatus", field "link_status"), ("mac", field "mac")]

/-- A field of one of the controllers of a shelf. -/
def controller (i : Nat) (k : String) : Column := .at [.key "ctrlrs", .index i, .key k]

def discovershelve : Mode where
  detail := "shelves"
  columns := [("shslot", .slot), ("arrayname", field "array_name"),
    ("actrlside", controller 0 "ctrlr_side"), ("afanstatus", controller 0 "fan_overall_status"),
    ("atempstatus", controller 0 "temp_overall_status"), ("bctrlside", controller 1 "ctrlr_side"),
    ("bfanstatus", controller 1 "fan_overall_status"),
    ("btempstatus", controller 1 "temp_overall_status"),
    ("psustatus", field "psu_overall_status")]

def discoverpools : Mode where
  detail := "pools"
  columns := [("slot", .slot), ("arrayname", field "name"),
    ("capacity", .terabytes [.key "capacity"]), ("free", .terabytes [.key "free_space"])]

def replication : Mode where
  detail := "replication_partners"
  columns := [("slot", .slot), ("name", field "name"), ("sync", field "cfg_sync_status")]

/-- The modes of the script. -/
def modes : List Mode :=
  [disks, statusfc, discovernet, discovershelve, discoverpools, replication]

/-- `json.dumps(…)`. -/
def python : Style where
  behindComma := [' ']
  behindColon := [' ']
  escape := escape
  blank_comma := by decide
  blank_colon := by decide
  spelling c := ⟨head?_escape c, readChar_escape c⟩

/-- The same without blanks. -/
def dense : Style := { python with
  behindComma := []
  behindColon := []
  blank_comma := blank_nil
  blank_colon := blank_nil }

/-- `.replace(" ","")`. -/
def deleteBlanks (t : Text) : Text := t.filter fun c => c != ' '

/-- The passes of `for i in range(v)`; a negative number makes none, and a truth value is one or
zero. -/
def passes : Json → Option Nat
  | .lit .true => some 1
  | .lit .false => some 0
  | .num n => some n
  | .neg _ => some 0
  | _ => none

section Script

-- `format(int(v)/1024/1024/1024/1024, '.2f')`; `none` is an error of `int`
variable (terabytes : Json → Option Text)

/-- The value of a column for the object of a slot. -/
def Column.value (i : Nat) (object : Json) : Column → Option Json
  | .slot => some (.num i)
  | .at path => path.foldlM (fun v p => p.take v) object
  | .terabytes path => do
    let v ← path.foldlM (fun v p => p.take v) object
    let t ← terabytes v
    some (.str t)

/-- The row of a slot. -/
def Mode.row (m : Mode) (i : Nat) (object : Json) : Option Json := do
  let members ← m.columns.mapM fun c => do
    let v ← c.2.value terabytes i object
    some (c.1.toList, v)
  some (.obj members)

/-- The rows of an answer; without a row the objects are not looked at. -/
def Mode.rows (m : Mode) (answer : Json) : Option (List Json) := do
  let rowcount ← passes (← answer.get "endRow".toList)
  (List.range rowcount).mapM fun i => do
    let data ← answer.get "data".toList
    let object ← Place.take (.index i) data
    m.row terabytes i object

/-- What the script prints for an answer. -/
def Mode.printed (m : Mode) (answer : Json) : Option Text := do
  let arr1 ← m.rows terabytes answer
  some (deleteBlanks (python.compact (.arr arr1)) ++ ['\n'])

end Script

/-- `$.[slot].key`, what the monitoring reads of a document. -/
def itemValue (document : Text) (slot : Nat) (key : Text) : Option Json := do
  let v ← loads document
  let row ← Place.take (.index slot) v
  row.get key

/-! ## From an answer to an item -/

/-- No two keys of an object inside the value are the same without their blanks. -/
def KeysApart (v : Json) : Prop := AllKeys List.Nodup (v.mapText deleteBlanks)

/-- No escape sequence has a blank. -/
theorem blank_notMem_escape {c : Char} (hc : c ≠ ' ') : ' ' ∉ escape c := by
  have hdigit : ∀ n, ' ' ≠ (n % 16).digitChar := by
    have hall : ∀ d < 16, ' ' ≠ d.digitChar := by decide
    exact fun n => hall _ (Nat.mod_lt n (by decide))
  have hunit : ∀ n, ' ' ∉ escapeUnit n := by
    intro n
    simp only [escapeUnit, hex4, List.mem_cons, List.not_mem_nil, or_false, hdigit]
    decide
  unfold escape
  split_ifs
  iterate 7 exact by decide
  · exact fun h => hc (List.mem_singleton.mp h).symm
  · exact hunit _
  · exact fun h => (List.mem_append.mp h).elim (hunit _) (hunit _)

/-- The blanks of the document are those of its separators and its strings. -/
theorem python_deletes : Deletes python dense fun c => c != ' ' where
  isSyntax c hc := by
    rw [bne_iff_ne]
    rintro rfl
    exact absurd hc (by decide)
  behindComma := rfl
  behindColon := rfl
  escape c := by
    change (escape c).filter (fun c => c != ' ') = if (c != ' ') = true then escape c else []
    by_cases hc : c = ' '
    · subst hc
      rfl
    · rw [if_pos (bne_iff_ne.mpr hc), List.filter_eq_self]
      intro x hx
      rw [bne_iff_ne]
      rintro rfl
      exact blank_notMem_escape hc hx

/-- The columns of a mode have distinct names without blanks. -/
theorem columns_nodup {m : Mode} (hm : m ∈ modes) :
    (m.columns.map fun c => c.1.toList).Nodup ∧
      ∀ c ∈ m.columns, deleteBlanks c.1.toList = c.1.toList := by
  have hall : ∀ m ∈ modes, (m.columns.map fun c => c.1.toList).Nodup ∧
      ∀ k ∈ m.columns.map fun c => c.1.toList, deleteBlanks k = k := by decide
  obtain ⟨hnodup, hkeep⟩ := hall m hm
  exact ⟨hnodup, fun c hc => hkeep _ (List.mem_map_of_mem hc)⟩

section Items

variable {terabytes : Json → Option Text} {m : Mode}

/-- The results of a list of computations, place by place. -/
theorem getElem?_of_mapM {α β : Type} {f : α → Option β} {xs : List α} {ys : List β}
    (h : xs.mapM f = some ys) (i : Nat) : ys[i]? = xs[i]?.bind f := by
  induction xs generalizing ys i with
  | nil =>
    obtain rfl : [] = ys := Option.some.inj h
    rfl
  | cons x xs ih =>
    simp only [List.mapM_cons, Option.bind_eq_bind, Option.bind_eq_some_iff] at h
    obtain ⟨y, hy, ys', hys, heq⟩ := h
    obtain rfl : y :: ys' = ys := Option.some.inj heq
    cases i with
    | zero => exact hy.symm
    | succ i => exact ih hys i

theorem forall₂_of_mapM {α β : Type} {f : α → Option β} {xs : List α} {ys : List β}
    (h : xs.mapM f = some ys) : List.Forall₂ (fun x y => f x = some y) xs ys := by
  induction xs generalizing ys with
  | nil =>
    obtain rfl : [] = ys := Option.some.inj h
    exact .nil
  | cons x xs ih =>
    simp only [List.mapM_cons, Option.bind_eq_bind, Option.bind_eq_some_iff] at h
    obtain ⟨y, hy, ys', hys, heq⟩ := h
    obtain rfl : y :: ys' = ys := Option.some.inj heq
    exact .cons hy (ih hys)

theorem exists_of_forall₂ {α β : Type} {R : α → β → Prop} {xs : List α} {ys : List β}
    (h : List.Forall₂ R xs ys) :
    (∀ x ∈ xs, ∃ y ∈ ys, R x y) ∧ ∀ y ∈ ys, ∃ x ∈ xs, R x y := by
  induction h with
  | nil => exact ⟨fun x hx => absurd hx List.not_mem_nil, fun y hy => absurd hy List.not_mem_nil⟩
  | cons hxy _ ih =>
    refine ⟨List.forall_mem_cons.mpr ⟨⟨_, List.mem_cons_self, hxy⟩, fun x hx => ?_⟩,
      List.forall_mem_cons.mpr ⟨⟨_, List.mem_cons_self, hxy⟩, fun y hy => ?_⟩⟩
    · obtain ⟨y, hy, h⟩ := ih.1 x hx
      exact ⟨y, List.mem_cons_of_mem _ hy, h⟩
    · obtain ⟨x, hx, h⟩ := ih.2 y hy
      exact ⟨x, List.mem_cons_of_mem _ hx, h⟩

/-- A row has the values of the columns under their names. -/
theorem row_eq_some {i : Nat} {object row : Json} (h : m.row terabytes i object = some row) :
    ∃ ms, row = .obj ms ∧ List.Forall₂ (fun c e => e.1 = c.1.toList ∧
      c.2.value terabytes i object = some e.2) m.columns ms := by
  simp only [Mode.row, Option.bind_eq_bind, Option.bind_eq_some_iff, Option.some.injEq] at h
  obtain ⟨ms, hms, rfl⟩ := h
  refine ⟨ms, rfl, (forall₂_of_mapM hms).imp ?_⟩
  rintro c e hentry
  simp only [Option.bind_eq_some_iff, Option.some.injEq] at hentry
  obtain ⟨v, hv, rfl⟩ := hentry
  exact ⟨rfl, hv⟩

/-- The names of the columns are the keys of a row. -/
theorem map_fst_of_forall₂ {P : String × Column → Text × Json → Prop}
    {cs : List (String × Column)} {ms : List (Text × Json)}
    (h : List.Forall₂ (fun c e => e.1 = c.1.toList ∧ P c e) cs ms) :
    ms.map Prod.fst = cs.map fun c => c.1.toList := by
  induction h with
  | nil => rfl
  | cons hentry _ ih => rw [List.map_cons, List.map_cons, hentry.1, ih]

/-- In a row without blanks the keys are apart if they are in the values. -/
theorem keysApart_row (hm : m ∈ modes) {i : Nat} {object row : Json}
    (h : m.row terabytes i object = some row)
    (hvalues : ∀ c ∈ m.columns, ∀ v, c.2.value terabytes i object = some v → KeysApart v) :
    KeysApart row := by
  obtain ⟨ms, rfl, hms⟩ := row_eq_some h
  have hkeys := map_fst_of_forall₂ hms
  obtain ⟨hnodup, hkeep⟩ := columns_nodup hm
  have hmapped : (mapMembers deleteBlanks ms).map Prod.fst = m.columns.map fun c => c.1.toList := by
    rw [mapMembers_eq_map, List.map_map]
    have hcomp : (Prod.fst ∘ fun e : Text × Json => (deleteBlanks e.1, e.2.mapText deleteBlanks)) =
        deleteBlanks ∘ Prod.fst := rfl
    rw [hcomp, ← List.map_map, hkeys, List.map_map]
    exact List.map_congr_left hkeep
  refine ⟨hmapped ▸ hnodup, allKeysMembers_iff.mpr fun e he => ?_⟩
  rw [mapMembers_eq_map] at he
  obtain ⟨e', he', rfl⟩ := List.mem_map.mp he
  obtain ⟨c, hc, -, hvalue⟩ := (exists_of_forall₂ hms).2 e' he'
  exact hvalues c hc _ hvalue

/-- The rows without blanks. -/
theorem allKeys_rows {rows : List Json} (hkeys : ∀ row ∈ rows, KeysApart row) :
    AllKeys List.Nodup (.arr (rows.map (mapText deleteBlanks))) := by
  induction rows with
  | nil => trivial
  | cons row rows ih =>
    rw [List.forall_mem_cons] at hkeys
    exact ⟨hkeys.1, ih hkeys.2⟩

/-- The document without its blanks is that of the rows without theirs. -/
theorem loads_printed {rows : List Json} (hkeys : ∀ row ∈ rows, KeysApart row) :
    loads (deleteBlanks (python.compact (.arr rows)) ++ ['\n']) =
      some (.arr (rows.map (mapText deleteBlanks))) := by
  have hdense : deleteBlanks (python.compact (.arr rows)) =
      dense.compact ((Json.arr rows).mapText deleteBlanks) := python_deletes.filter_compact _
  rw [mapText, mapItems_eq_map] at hdense
  rw [hdense]
  exact dense.loads_compact (allKeys_rows hkeys) blank_nil (by decide)

/-- The rows are those of the first objects. -/
theorem rows_eq_some {answer : Json} {rows : List Json} (h : m.rows terabytes answer = some rows) :
    ∃ rowcount, (answer.get "endRow".toList).bind passes = some rowcount ∧
      ((List.range rowcount).mapM fun i => do
        let data ← answer.get "data".toList
        let object ← Place.take (.index i) data
        m.row terabytes i object) = some rows := by
  simp only [Mode.rows, Option.bind_eq_bind, Option.bind_eq_some_iff] at h
  obtain ⟨v, hend, rowcount, hpasses, h⟩ := h
  exact ⟨rowcount, Option.bind_eq_some_iff.mpr ⟨v, hend, hpasses⟩, h⟩

/-- A row comes from an object of the answer. -/
theorem row_of_pass {answer : Json} {i : Nat} {row : Json} (h : (do
      let data ← answer.get "data".toList
      let object ← Place.take (.index i) data
      m.row terabytes i object) = some row) :
    ∃ data object, answer.get "data".toList = some data ∧
      Place.take (.index i) data = some object ∧ m.row terabytes i object = some row := by
  obtain ⟨data, hdata, h⟩ := Option.bind_eq_some_iff.mp h
  obtain ⟨object, hobject, h⟩ := Option.bind_eq_some_iff.mp h
  exact ⟨data, object, hdata, hobject, h⟩

/-- An item of a row is the value of its column, without blanks. -/
theorem get_row (hm : m ∈ modes) {i : Nat} {object row : Json}
    (h : m.row terabytes i object = some row) {c : String × Column} (hc : c ∈ m.columns) :
    ∃ v, c.2.value terabytes i object = some v ∧
      (row.mapText deleteBlanks).get c.1.toList = some (v.mapText deleteBlanks) := by
  obtain ⟨ms, rfl, hms⟩ := row_eq_some h
  obtain ⟨hnodup, hkeep⟩ := columns_nodup hm
  have hkeys := map_fst_of_forall₂ hms
  obtain ⟨e, he, hname, hvalue⟩ := (exists_of_forall₂ hms).1 c hc
  have hkeeps : ∀ e ∈ ms, deleteBlanks e.1 = e.1 := by
    intro e he
    obtain ⟨c', hc', hname', -⟩ := (exists_of_forall₂ hms).2 e he
    rw [hname', hkeep c' hc']
  refine ⟨e.2, hvalue, ?_⟩
  rw [get_mapText hkeeps, ← hname, get_eq_some_of_mem (hkeys ▸ hnodup) he]
  rfl

end Items

/-- A pool of one terabyte with a blank in its name. -/
def poolAnswer : Json :=
  .obj [("endRow".toList, .num 1), ("data".toList, .arr [.obj [("name".toList, .str "a b".toList),
    ("capacity".toList, .num 1099511627776), ("free_space".toList, .num 1099511627776)]])]

/-- The size of the pool in terabytes. -/
def poolTerabytes : Json → Option Text
  | .num 0 => some "0.00".toList
  | _ => some "1.00".toList

end OpsScripts.Zabbix
