import OpsScripts.OneC.Report

/-!
# Keys that the report loses

The empty key is removed by a replacement in the whole text. A value cannot be hit by it: an
inner quotation mark stands behind a backslash. A key that ends in a quotation mark can: its
escaped end, the closing mark and the colon make up the text that is removed, and the backslash
that stays makes the document unreadable. With no record there is no document at all.
-/

namespace OpsScripts.OneC

/-- A value of a record. -/
inductive Scalar where
  | str (t : Text)
  | int (z : Int)

/-- The value in the document. -/
def Scalar.json : Scalar → Json
  | .str t => .str t
  | .int (.ofNat n) => .num n
  | .int (.negSucc n) => .neg n

/-- A dictionary of strings and integers without an empty key. -/
structure ScalarRecord where
  fields : List (Text × Scalar)
  nonempty : ∀ f ∈ fields, f.1 ≠ []
  distinct : (fields.map Prod.fst).Nodup

/-- The members of the object. -/
def ScalarRecord.members (r : ScalarRecord) : List (Text × Json) :=
  r.fields.map fun f => (f.1, f.2.json)

/-- The object that is appended to the list. -/
def ScalarRecord.json (r : ScalarRecord) : Json := .obj r.members

/-- The report is a document that is read back as the list; the order of members does not
count. -/
def Decodes (records : List ScalarRecord) : Prop :=
  ∃ items, Json.loads (report (records.map ScalarRecord.json)) = some (.arr items) ∧
    List.Forall₂ (fun r item => ∃ ms, item = .obj ms ∧ ms.Perm r.members) records items

/-- A key ends in a quotation mark. -/
def endsInQuote (k : Text) : Bool := k.getLast? == some '"'

/-! ## Records -/

/-- The members in the order they are printed. -/
def ScalarRecord.sorted (r : ScalarRecord) : List (Text × Json) :=
  r.members.insertionSort fun m m' => m.1 ≤ m'.1

theorem Scalar.sortKeys_json (v : Scalar) : v.json.sortKeys = v.json := by
  rcases v with t | n | n <;> rfl

theorem Scalar.allKeys_json (P : List Text → Prop) (v : Scalar) : Json.AllKeys P v.json := by
  rcases v with t | n | n <;> trivial

namespace ScalarRecord

variable (r : ScalarRecord)

theorem map_fst_members : r.members.map Prod.fst = r.fields.map Prod.fst := by
  rw [members, List.map_map]
  rfl

theorem sorted_perm : r.sorted.Perm r.members := List.perm_insertionSort _ _

theorem sortKeys_json : r.json.sortKeys = .obj r.sorted := by
  have hmembers : ∀ fs : List (Text × Scalar),
      Json.sortMembers (fs.map fun f => (f.1, f.2.json)) = fs.map fun f => (f.1, f.2.json) := by
    intro fs
    induction fs with
    | nil => rfl
    | cons f fs ih =>
      rw [List.map_cons, Json.sortMembers, Scalar.sortKeys_json, ih]
  rw [json, Json.sortKeys, members, hmembers, sorted, members]

theorem allKeysMembers (P : List Text → Prop) {ms : List (Text × Json)}
    (hms : ∀ m ∈ ms, m ∈ r.members) : Json.AllKeysMembers P ms := by
  rw [Json.allKeysMembers_iff]
  intro m hm
  obtain ⟨f, -, rfl⟩ := List.mem_map.mp (hms m hm)
  exact Scalar.allKeys_json P f.2

/-- What the keys of a record satisfy. -/
theorem allKeys_iff {P : List Text → Prop} :
    Json.AllKeys P r.json ↔ P (r.fields.map Prod.fst) := by
  rw [json, Json.AllKeys, map_fst_members]
  exact and_iff_left (r.allKeysMembers P fun _ h => h)

end ScalarRecord

theorem allKeysItems_iff {P : List Text → Prop} {vs : List Json} :
    Json.AllKeysItems P vs ↔ ∀ v ∈ vs, Json.AllKeys P v := by
  induction vs with
  | nil => simp [Json.AllKeysItems]
  | cons v vs ih => rw [Json.AllKeysItems, ih, List.forall_mem_cons]

/-- A key is safe exactly if it is not empty and does not end in a quotation mark. -/
theorem plainKey_iff {k : Text} : plainKey k = true ↔ k ≠ [] ∧ endsInQuote k = false := by
  have hopen : scan 0 (Json.quote k ++ [':']) =
      scan 1 (k.flatMap Json.escape ++ ['"', ':']) := by
    rw [Json.quote, List.cons_append, List.append_assoc]
    rfl
  rw [plainKey, hopen, scan_append, scan_flatMap_escape k le_rfl, Option.bind_some, endsInQuote]
  cases hlast : k.getLast? with
  | none =>
    rw [List.getLast?_eq_none_iff] at hlast
    simp [hlast, scan]
  | some x =>
    have hne : k ≠ [] := by
      rintro rfl
      cases hlast
    by_cases hx : x = '"' <;> simp [scan, hne, hx]

/-! ## Where no key ends in a quotation mark -/

theorem decodes_of_keys {records : List ScalarRecord} (hne : records ≠ [])
    (hkeys : ∀ r ∈ records, ∀ f ∈ r.fields, endsInQuote f.1 = false) : Decodes records := by
  have hitems : ∀ P : List Text → Prop, (∀ r ∈ records, P (r.fields.map Prod.fst)) →
      Json.AllKeysItems P (records.map ScalarRecord.json) := by
    intro P hP
    rw [allKeysItems_iff]
    intro v hv
    obtain ⟨r, hr, rfl⟩ := List.mem_map.mp hv
    exact r.allKeys_iff.mpr (hP r hr)
  refine ⟨_, loads_report (by simpa using hne) (hitems PlainKeys fun r hr k hk => ?_)
    (hitems List.Nodup fun r _ => r.distinct), ?_⟩
  · obtain ⟨f, hf, rfl⟩ := List.mem_map.mp hk
    exact plainKey_iff.mpr ⟨r.nonempty f hf, hkeys r hr f hf⟩
  · rw [Json.sortItems_eq_map, List.map_map, List.forall₂_map_right_iff, List.forall₂_same]
    intro r _
    exact ⟨r.sorted, r.sortKeys_json, r.sorted_perm⟩

/-! ## The text up to the first key that ends in a quotation mark -/

/-- Items with others behind them. -/
def itemsPrefix (level : Nat) (vs : List Json) : Text :=
  vs.flatMap fun v => Json.newline level ++ Json.print level v ++ [',']

/-- Members with others behind them. -/
def membersPrefix (level : Nat) (ms : List (Text × Json)) : Text :=
  ms.flatMap fun m => Json.newline level ++ Json.quote m.1 ++ ':' :: ' ' :: Json.print level m.2 ++
    [',']

theorem itemsPrefix_cons (level : Nat) (v : Json) (vs : List Json) :
    itemsPrefix level (v :: vs) =
      Json.newline level ++ (Json.print level v ++ ',' :: itemsPrefix level vs) := by
  simp only [itemsPrefix, List.flatMap_cons, List.append_assoc, List.singleton_append]

theorem membersPrefix_cons (level : Nat) (k : Text) (v : Json) (ms : List (Text × Json)) :
    membersPrefix level ((k, v) :: ms) = Json.newline level ++ (Json.quote k ++
      ':' :: ' ' :: (Json.print level v ++ ',' :: membersPrefix level ms)) := by
  simp only [membersPrefix, List.flatMap_cons, List.append_assoc, List.cons_append,
    List.nil_append]

theorem printItems_append_cons (level : Nat) (before : List Json) (v : Json) (after : List Json) :
    Json.printItems level (before ++ v :: after) = itemsPrefix level before ++
      (Json.newline level ++ Json.print level v ++ Json.comma after.isEmpty ++
        Json.printItems level after) := by
  induction before with
  | nil => rfl
  | cons w before ih =>
    have hcomma : Json.comma (before ++ v :: after).isEmpty = [','] := by
      cases before <;> rfl
    rw [List.cons_append, Json.printItems, hcomma, ih, itemsPrefix_cons]
    simp only [List.append_assoc, List.cons_append, List.nil_append]

theorem printMembers_append_cons (level : Nat) (before : List (Text × Json)) (m : Text × Json)
    (after : List (Text × Json)) :
    Json.printMembers level (before ++ m :: after) = membersPrefix level before ++
      (Json.newline level ++ Json.quote m.1 ++ ':' :: ' ' :: Json.print level m.2 ++
        Json.comma after.isEmpty ++ Json.printMembers level after) := by
  induction before with
  | nil => rfl
  | cons w before ih =>
    have hcomma : Json.comma (before ++ m :: after).isEmpty = [','] := by
      cases before <;> rfl
    rw [List.cons_append, Json.printMembers, hcomma, ih, membersPrefix_cons]
    simp only [List.append_assoc, List.cons_append, List.nil_append]

/-- The beginning of an array up to the backslash in a key. -/
def broken (items : List Json) (ms : List (Text × Json)) (k : Text) : Text :=
  '[' :: (itemsPrefix 2 items ++ (Json.newline 2 ++ '\x7b' :: (membersPrefix 3 ms ++
    (Json.newline 3 ++ '"' :: (k.flatMap Json.escape ++ ['\\'])))))

theorem exists_broken_eq_concat (items : List Json) (ms : List (Text × Json)) (k : Text) :
    ∃ t, broken items ms k = t ++ ['\\'] := by
  refine ⟨'[' :: (itemsPrefix 2 items ++ (Json.newline 2 ++ '\x7b' :: (membersPrefix 3 ms ++
    (Json.newline 3 ++ '"' :: k.flatMap Json.escape)))), ?_⟩
  simp only [broken, List.append_assoc, List.cons_append]

/-- The array in whose object the key stands. -/
theorem print_eq_broken (before after : List Json) (ms ms' : List (Text × Json)) (k : Text)
    (v : Json) : ∃ rest,
      Json.print 1 (.arr (before ++ .obj (ms ++ (k ++ ['"'], v) :: ms') :: after)) =
        broken before ms k ++ "\"\":".toList ++ ' ' :: rest := by
  have harr : ∀ vs : List Json, vs ≠ [] → Json.print 1 (.arr vs) =
      '[' :: (Json.printItems 2 vs ++ Json.newline 1 ++ [']']) := by
    intro vs hvs
    cases vs with
    | nil => exact absurd rfl hvs
    | cons v vs => rw [Json.print]
  have hobj : ∀ ms : List (Text × Json), ms ≠ [] → Json.print 2 (.obj ms) =
      '\x7b' :: (Json.printMembers 3 ms ++ Json.newline 2 ++ ['\x7d']) := by
    intro ms hms
    cases ms with
    | nil => exact absurd rfl hms
    | cons m ms => rw [Json.print]
  have hquote : Json.quote (k ++ ['"']) =
      '"' :: (k.flatMap Json.escape ++ ['\\']) ++ "\"\"".toList := by
    rw [Json.quote, List.flatMap_append, List.flatMap_singleton]
    simp only [List.append_assoc, List.cons_append]
    rfl
  have hcolon : "\"\":".toList = "\"\"".toList ++ [':'] := rfl
  rw [harr _ (by simp), printItems_append_cons, hobj _ (by simp), printMembers_append_cons, hquote,
    broken, hcolon]
  refine ⟨Json.print 3 v ++ (Json.comma ms'.isEmpty ++ (Json.printMembers 3 ms' ++
    (Json.newline 2 ++ '\x7d' :: (Json.comma after.isEmpty ++ (Json.printItems 2 after ++
      (Json.newline 1 ++ [']'])))))), ?_⟩
  simp only [List.append_assoc, List.cons_append, List.nil_append]

/-- A text in which no empty key is completed, whatever stands before it. -/
def Scanned (t : Text) : Prop := ∀ q, (scan q t).isSome

theorem Scanned.append {s t : Text} (hs : Scanned s) (ht : Scanned t) : Scanned (s ++ t) :=
  fun q => scan_append_isSome (hs q) ht

theorem Scanned.flatMap {α : Type*} {f : α → Text} {xs : List α} (h : ∀ x ∈ xs, Scanned (f x)) :
    Scanned (xs.flatMap f) := by
  induction xs with
  | nil => exact fun _ => rfl
  | cons x xs ih =>
    obtain ⟨hx, hxs⟩ := List.forall_mem_cons.mp h
    rw [List.flatMap_cons]
    exact hx.append (ih hxs)

/-- Behind a new line a text begins anew. -/
theorem scanned_newline {t : Text} (level : Nat) (h : (scan 0 t).isSome) :
    Scanned (Json.newline level ++ t) := by
  intro q
  rwa [scan_newline_append]

theorem scanned_singleton {x : Char} (hquote : x ≠ '"') (hcolon : x ≠ ':') : Scanned [x] := by
  intro q
  rw [scan_cons hquote hcolon]
  rfl

theorem scanned_itemsPrefix {items : List Json} (hitems : Json.AllKeysItems PlainKeys items)
    (level : Nat) : Scanned (itemsPrefix level items) := by
  refine Scanned.flatMap fun v hv => ?_
  rw [List.append_assoc]
  refine scanned_newline level (scan_append_isSome (scan_print level ?_) ?_)
  · exact allKeysItems_iff.mp hitems v hv
  · exact scanned_singleton (by decide) (by decide)

theorem scanned_membersPrefix {ms : List (Text × Json)} (hkeys : PlainKeys (ms.map Prod.fst))
    (hms : Json.AllKeysMembers PlainKeys ms) (level : Nat) : Scanned (membersPrefix level ms) := by
  refine Scanned.flatMap fun m hm => ?_
  have hkey : (scan 0 (Json.quote m.1 ++ [':'])).isSome := hkeys m.1 (List.mem_map_of_mem hm)
  have hsplit : Json.newline level ++ Json.quote m.1 ++ ':' :: ' ' :: Json.print level m.2 ++
      [','] = Json.newline level ++ ((Json.quote m.1 ++ [':']) ++
        ' ' :: (Json.print level m.2 ++ [','])) := by
    simp only [List.append_assoc, List.cons_append, List.nil_append]
  rw [hsplit]
  refine scanned_newline level (scan_append_isSome hkey fun r => ?_)
  rw [scan_cons (by decide) (by decide)]
  exact scan_append_isSome (scan_print level (Json.allKeysMembers_iff.mp hms m hm))
    (scanned_singleton (by decide) (by decide))

/-- With safe keys before it the broken beginning has no empty key in it. -/
theorem scanned_broken {items : List Json} {ms : List (Text × Json)} (k : Text)
    (hitems : Json.AllKeysItems PlainKeys items) (hkeys : PlainKeys (ms.map Prod.fst))
    (hms : Json.AllKeysMembers PlainKeys ms) : Scanned (broken items ms k) := by
  have hname : (scan 0 ('"' :: (k.flatMap Json.escape ++ ['\\']))).isSome := by
    have hopen : scan 0 ('"' :: (k.flatMap Json.escape ++ ['\\'])) =
        scan 1 (k.flatMap Json.escape ++ ['\\']) := rfl
    rw [hopen]
    exact scan_append_isSome (by rw [scan_flatMap_escape k le_rfl]; rfl)
      (scanned_singleton (by decide) (by decide))
  intro q
  rw [broken, scan_cons (by decide) (by decide)]
  refine (scanned_itemsPrefix hitems 2).append ?_ 0
  refine scanned_newline 2 ?_
  rw [scan_cons (by decide) (by decide)]
  exact (scanned_membersPrefix hkeys hms 3).append (scanned_newline 3 hname) 0

/-- The first occurrence behind such a text is removed. -/
theorem replace_scanned {t : Text} {q : Nat} (h : (scan q t).isSome)
    (hlast : ∀ x ∈ t.getLast?, x ≠ '"') (rest : Text) :
    replace "\"\":".toList [] (t ++ ("\"\":".toList ++ rest)) =
      t ++ replace "\"\":".toList [] rest := by
  induction t generalizing q with
  | nil => exact replace_append_left (by decide) [] rest
  | cons x t ih =>
    have htail : ∃ p, (scan p t).isSome := by
      rw [← List.singleton_append, scan_append] at h
      obtain ⟨r, hr⟩ := Option.isSome_iff_exists.mp h
      obtain ⟨p, -, hp⟩ := Option.bind_eq_some_iff.mp hr
      exact ⟨p, by rw [hp]; rfl⟩
    obtain ⟨p, hp⟩ := htail
    have hlast' : ∀ y ∈ t.getLast?, y ≠ '"' := by
      intro y hy
      refine hlast y ?_
      rw [List.getLast?_cons, hy]
      rfl
    have hbegins : ¬"\"\":".toList <+: x :: (t ++ ("\"\":".toList ++ rest)) := by
      rintro ⟨u, hu⟩
      obtain ⟨hx, hu⟩ := List.cons.inj hu
      match t, hlast, hu with
      | [], hlast, _ => exact hlast x rfl hx.symm
      | [y], hlast, hu => exact hlast y rfl (List.cons.inj hu).1.symm
      | y :: z :: t, _, hu =>
        obtain ⟨hy, hu⟩ := List.cons.inj hu
        obtain ⟨hz, -⟩ := List.cons.inj hu
        exact not_prefix_of_scan (s := []) h ⟨t, by rw [← hx, ← hy, ← hz]; rfl⟩
    rw [List.cons_append, replace_cons [] hbegins, ih hp hlast', List.cons_append]

/-! ## The document that is left cannot be read -/

/-- A backslash in front of a blank is an error. -/
theorem readString_broken (n : Nat) (k rest : Text) :
    Json.readString n (k.flatMap Json.escape ++ '\\' :: ' ' :: rest) = none := by
  induction n generalizing k with
  | zero => rfl
  | succ n ih =>
    cases k with
    | nil => rfl
    | cons c k =>
      obtain ⟨x, hx, hne⟩ := Json.head?_escape c
      have hhead : (Json.escape c ++ (k.flatMap Json.escape ++ '\\' :: ' ' :: rest)).head? ≠
          some '"' := by
        rw [List.head?_append, hx, Option.some_or]
        exact fun h => hne (Option.some.inj h)
      rw [List.flatMap_cons, List.append_assoc, Json.readString, if_neg hhead,
        Json.readChar_escape]
      simp only [Option.bind_eq_bind, Option.bind_some, ih, Option.bind_none]

/-- The members before the broken key are read, then it fails. -/
theorem readMembers_broken {ms : List (Text × Json)} (hms : Json.AllKeysMembers List.Nodup ms)
    (k rest : Text) {n : Nat} (hn : (membersPrefix 3 ms).length ≤ n) :
    Json.readMembers n (membersPrefix 3 ms ++ (Json.newline 3 ++
      '"' :: (k.flatMap Json.escape ++ '\\' :: ' ' :: rest))) = none := by
  induction ms generalizing n with
  | nil =>
    cases n with
    | zero => rfl
    | succ n =>
      have hskip : ∀ t : Text, Json.skip ('"' :: t) = '"' :: t :=
        fun t => Json.skip_of_head (by rintro x ⟨⟩; decide)
      rw [membersPrefix, List.flatMap_nil, List.nil_append, Json.readMembers]
      simp only [Json.skip_newline, hskip, readString_broken, Option.bind_eq_bind,
        Option.bind_none]
  | cons m ms ih =>
    obtain ⟨key, v⟩ := m
    cases n with
    | zero => rfl
    | succ n =>
      simp only [membersPrefix_cons, Json.newline, List.length_append, List.length_cons] at hn
      have hv : ∀ {rest}, Json.Ends rest →
          Json.readValue n (Json.print 3 v ++ rest) = some (v, rest) :=
        Json.readValue_print v hms.1 (by omega)
      have hquote : ∀ t, Json.skip (Json.quote key ++ t) =
          '"' :: (key.flatMap Json.escape ++ '"' :: t) := by
        intro t
        rw [Json.quote, List.cons_append, List.append_assoc, List.singleton_append,
          Json.skip_of_head (by rintro x ⟨⟩; decide)]
      have hcolon : ∀ t : Text, Json.skip (':' :: ' ' :: t) = ':' :: ' ' :: t :=
        fun t => Json.skip_of_head (by rintro x ⟨⟩; decide)
      have hcomma : ∀ t : Text, Json.skip (',' :: t) = ',' :: t :=
        fun t => Json.skip_of_head (by rintro x ⟨⟩; decide)
      have hblank : ∀ t, Json.skip (' ' :: (Json.print 3 v ++ t)) = Json.print 3 v ++ t :=
        fun t => Json.skip_print 3 v t
      have hrest := ih hms.2 (n := n) (by omega)
      rw [membersPrefix_cons, Json.readMembers]
      simp only [List.append_assoc, List.cons_append, Json.skip_newline, hquote,
        Json.readString_quote, Option.bind_eq_bind, Option.bind_some, hcolon, hblank,
        hv (Json.ends_cons (x := ',') (by decide) _), hcomma, hrest, Option.bind_none]

/-- The items before the broken object are read, then it fails. -/
theorem readItems_broken {items : List Json} {ms : List (Text × Json)}
    (hitems : Json.AllKeysItems List.Nodup items) (hms : Json.AllKeysMembers List.Nodup ms)
    (k rest : Text) {n : Nat}
    (hn : (itemsPrefix 2 items).length + ((membersPrefix 3 ms).length + 2) ≤ n) :
    Json.readItems n (itemsPrefix 2 items ++ (Json.newline 2 ++ '\x7b' :: (membersPrefix 3 ms ++
      (Json.newline 3 ++ '"' :: (k.flatMap Json.escape ++ '\\' :: ' ' :: rest))))) = none := by
  induction items generalizing n with
  | nil =>
    obtain ⟨n, rfl⟩ : ∃ m, n = m + 2 := ⟨n - 2, by omega⟩
    have hbrace : ∀ t : Text, Json.skip ('\x7b' :: t) = '\x7b' :: t :=
      fun t => Json.skip_of_head (by rintro x ⟨⟩; decide)
    have hhead : (Json.skip (membersPrefix 3 ms ++ (Json.newline 3 ++
        '"' :: (k.flatMap Json.escape ++ '\\' :: ' ' :: rest)))).head? ≠ some '\x7d' := by
      cases ms with
      | nil =>
        rw [membersPrefix, List.flatMap_nil, List.nil_append, Json.skip_newline,
          Json.skip_of_head (by rintro x ⟨⟩; decide)]
        simp
      | cons m ms =>
        rw [membersPrefix_cons, List.append_assoc, List.append_assoc, Json.skip_newline, Json.quote,
          List.cons_append, Json.skip_of_head (by rintro x ⟨⟩; decide)]
        simp
    have hmembers := readMembers_broken hms k rest (n := n) (by omega)
    rw [itemsPrefix, List.flatMap_nil, List.nil_append, Json.readItems, Json.skip_newline, hbrace,
      Json.readValue_brace hhead, hmembers]
    rfl
  | cons v items ih =>
    cases n with
    | zero => rfl
    | succ n =>
      simp only [itemsPrefix_cons, Json.newline, List.length_append, List.length_cons] at hn
      have hv : ∀ {rest}, Json.Ends rest →
          Json.readValue n (Json.print 2 v ++ rest) = some (v, rest) :=
        Json.readValue_print v hitems.1 (by omega)
      have hcomma : ∀ t : Text, Json.skip (',' :: t) = ',' :: t :=
        fun t => Json.skip_of_head (by rintro x ⟨⟩; decide)
      have hrest := ih hitems.2 (n := n) (by omega)
      rw [itemsPrefix_cons, Json.readItems]
      simp only [List.append_assoc, List.cons_append, Json.skip_newline, Json.skip_print,
        Option.bind_eq_bind, Option.bind_some, hv (Json.ends_cons (x := ',') (by decide) _),
        hcomma, hrest, Option.bind_none]

/-- The text of the report up to the broken key. -/
theorem exists_report_eq {objects before after : List Json} {ms ms' : List (Text × Json)}
    {k : Text} {v : Json}
    (hsorted : Json.sortItems objects = before ++ .obj (ms ++ (k ++ ['"'], v) :: ms') :: after)
    (hplain : Json.AllKeysItems PlainKeys before) (hkeys : PlainKeys (ms.map Prod.fst))
    (hms : Json.AllKeysMembers PlainKeys ms) :
    ∃ rest, report objects = Json.newline 1 ++ ' ' :: (broken before ms k ++ ' ' :: rest) := by
  have hne : objects ≠ [] := by
    rintro rfl
    simp [Json.sortItems] at hsorted
  obtain ⟨rest, hprint⟩ := print_eq_broken before after ms ms' k v
  have htext : ((datalic objects).dumps.drop 1).dropLast = Json.newline 1 ++ "\"\":".toList ++
      ((' ' :: broken before ms k) ++
        ("\"\":".toList ++ ' ' :: (rest ++ Json.newline 0))) := by
    rw [dropLast_dumps hne, hsorted, hprint]
    simp only [List.append_assoc, List.cons_append]
  have hscan : (scan 0 (' ' :: broken before ms k)).isSome := by
    rw [scan_cons (by decide) (by decide)]
    exact scanned_broken k hplain hkeys hms 0
  have hlast : ∀ x ∈ (' ' :: broken before ms k).getLast?, x ≠ '"' := by
    obtain ⟨t, ht⟩ := exists_broken_eq_concat before ms k
    intro x hx
    rw [ht, ← List.cons_append, List.getLast?_concat] at hx
    rw [← Option.some.inj hx]
    decide
  have hblank : ∀ u, replace "\"\":".toList [] (' ' :: u) = ' ' :: replace "\"\":".toList [] u := by
    intro u
    exact replace_append_cons (by decide) [] [] u (by decide)
  rw [report, htext, replace_emptyKey, replace_scanned hscan hlast, hblank]
  exact ⟨_, rfl⟩

/-- A key that ends in a quotation mark makes the document unreadable. -/
theorem loads_report_broken {objects before after : List Json} {ms ms' : List (Text × Json)}
    {k : Text} {v : Json}
    (hsorted : Json.sortItems objects = before ++ .obj (ms ++ (k ++ ['"'], v) :: ms') :: after)
    (hplain : Json.AllKeysItems PlainKeys before) (hnodup : Json.AllKeysItems List.Nodup before)
    (hkeys : PlainKeys (ms.map Prod.fst))
    (hms : ∀ P : List Text → Prop, Json.AllKeysMembers P ms) :
    Json.loads (report objects) = none := by
  obtain ⟨rest, hreport⟩ := exists_report_eq hsorted hplain hkeys (hms PlainKeys)
  have hbroken : broken before ms k ++ ' ' :: rest = '[' :: (itemsPrefix 2 before ++
      (Json.newline 2 ++ '\x7b' :: (membersPrefix 3 ms ++ (Json.newline 3 ++
        '"' :: (k.flatMap Json.escape ++ '\\' :: ' ' :: rest))))) := by
    rw [broken]
    simp only [List.append_assoc, List.cons_append, List.nil_append]
  have hskip : ∀ t : Text, Json.skip (Json.newline 1 ++ ' ' :: '[' :: t) = '[' :: t :=
    fun _ => rfl
  rw [hreport, hbroken, Json.loads, hskip]
  have hhead : (Json.skip (itemsPrefix 2 before ++
      (Json.newline 2 ++ '\x7b' :: (membersPrefix 3 ms ++ (Json.newline 3 ++
        '"' :: (k.flatMap Json.escape ++ '\\' :: ' ' :: rest)))))).head? ≠ some ']' := by
    cases before with
    | nil =>
      rw [itemsPrefix, List.flatMap_nil, List.nil_append, Json.skip_newline,
        Json.skip_of_head (by rintro x ⟨⟩; decide)]
      simp
    | cons w before =>
      obtain ⟨x, hx, hout⟩ := Json.head?_print 2 w
      rw [itemsPrefix_cons, List.append_assoc, List.append_assoc, Json.skip_newline,
        Json.skip_print, List.head?_append, hx, Option.some_or]
      intro h
      rw [Option.some.inj h] at hout
      exact hout (by decide)
  rw [List.length_append, List.length_cons, List.length_cons, ← Nat.add_assoc,
    Json.readValue_bracket hhead, readItems_broken hnodup (hms List.Nodup)]
  · rfl
  · simp only [List.length_append, List.length_cons]
    omega

/-- A list has a first element that satisfies a condition. -/
theorem exists_first {α : Type*} {p : α → Bool} {xs : List α} (h : ∃ x ∈ xs, p x = true) :
    ∃ before x after, xs = before ++ x :: after ∧ p x = true ∧ ∀ y ∈ before, p y = false := by
  obtain ⟨x, hx⟩ := Option.isSome_iff_exists.mp (List.find?_isSome.mpr h)
  obtain ⟨hp, before, after, heq, hbefore⟩ := List.find?_eq_some_iff_append.mp hx
  exact ⟨before, x, after, heq, hp, fun y hy => by simpa using hbefore y hy⟩

/-- The keys that occur in a record, in any order of its members. -/
theorem ScalarRecord.plainKeys {r : ScalarRecord} {ms : List (Text × Json)}
    (hms : ∀ m ∈ ms, m ∈ r.members) (h : ∀ m ∈ ms, endsInQuote m.1 = false) :
    PlainKeys (ms.map Prod.fst) := by
  intro k hk
  obtain ⟨m, hm, rfl⟩ := List.mem_map.mp hk
  obtain ⟨f, hf, rfl⟩ := List.mem_map.mp (hms m hm)
  exact plainKey_iff.mpr ⟨r.nonempty f hf, h _ hm⟩

theorem keys_of_decodes {records : List ScalarRecord} (h : Decodes records) :
    ∀ r ∈ records, ∀ m ∈ r.sorted, endsInQuote m.1 = false := by
  by_contra hbad
  have hrecord : ∃ r ∈ records, (r.sorted.any fun m => endsInQuote m.1) = true := by
    simpa only [not_forall, exists_prop, Bool.not_eq_false, List.any_eq_true] using hbad
  obtain ⟨before, r, after, rfl, hr, hbefore⟩ := exists_first hrecord
  obtain ⟨ms, ⟨key, v⟩, ms', hsorted, hkey, hms⟩ := exists_first (List.any_eq_true.mp hr)
  obtain ⟨k, rfl⟩ := List.getLast?_eq_some_iff.mp (beq_iff_eq.mp hkey)
  have hmem : ∀ m ∈ ms, m ∈ r.members := fun m hm =>
    r.sorted_perm.mem_iff.mp (hsorted ▸ List.mem_append_left _ hm)
  have hitems : ∀ P : List Text → Prop, (∀ ks ks' : List Text, ks.Perm ks' → P ks → P ks') →
      (∀ r ∈ before, P (r.fields.map Prod.fst)) →
        Json.AllKeysItems P (before.map fun r => r.json.sortKeys) := by
    intro P hperm hP
    rw [allKeysItems_iff]
    intro w hw
    obtain ⟨r', hr', rfl⟩ := List.mem_map.mp hw
    exact Json.allKeys_sortKeys hperm (r'.allKeys_iff.mpr (hP r' hr'))
  have hplain : ∀ r ∈ before, PlainKeys (r.fields.map Prod.fst) := by
    intro r' hr'
    have hnone := List.any_eq_false.mp (hbefore r' hr')
    rw [← r'.map_fst_members]
    refine ScalarRecord.plainKeys (fun _ hm => hm) fun m hm => Bool.eq_false_iff.mpr ?_
    exact hnone m (r'.sorted_perm.mem_iff.mpr hm)
  have hlist : Json.sortItems ((before ++ r :: after).map ScalarRecord.json) =
      (before.map fun r => r.json.sortKeys) ++
        .obj (ms ++ (k ++ ['"'], v) :: ms') :: after.map fun r => r.json.sortKeys := by
    rw [Json.sortItems_eq_map, List.map_map, List.map_append, List.map_cons, ← hsorted,
      Function.comp_apply, r.sortKeys_json]
    rfl
  obtain ⟨items, hloads, -⟩ := h
  rw [loads_report_broken hlist (hitems PlainKeys
      (fun _ _ hperm h k hk => h k (hperm.mem_iff.mpr hk)) hplain)
    (hitems List.Nodup (fun _ _ hperm => hperm.nodup_iff.mp) fun r _ => r.distinct)
    (ScalarRecord.plainKeys hmem hms) fun P => r.allKeysMembers P hmem] at hloads
  cases hloads

/-- The report is a document of the list exactly if there is a record and no key ends in a
quotation mark. -/
theorem decodes_iff (records : List ScalarRecord) :
    Decodes records ↔ records ≠ [] ∧
      ∀ r ∈ records, ∀ f ∈ r.fields, endsInQuote f.1 = false := by
  constructor
  · intro h
    refine ⟨?_, fun r hr f hf => ?_⟩
    · rintro rfl
      obtain ⟨items, hloads, -⟩ := h
      rw [List.map_nil, loads_report_nil] at hloads
      cases hloads
    · exact keys_of_decodes h r hr (f.1, f.2.json)
        (r.sorted_perm.mem_iff.mpr (List.mem_map_of_mem hf))
  · rintro ⟨hne, hkeys⟩
    exact decodes_of_keys hne hkeys

/-- Where there is no record, there is no document. -/
theorem nil_not_decodes : ¬Decodes [] := by
  rintro ⟨items, hloads, -⟩
  rw [List.map_nil, loads_report_nil] at hloads
  cases hloads

/-- A key that ends in a quotation mark leaves a backslash in front of a blank. -/
example : report [.obj [("a\"".toList, .num 1)]] =
    "\n   [\n    \x7b\n      \"a\\ 1\n    \x7d\n  ]\n".toList := by
  decide +kernel

end OpsScripts.OneC
