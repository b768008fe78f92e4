import OpsScripts.Core.Json

/-!
# What is printed is read back

Each piece of a printed value is read with any text behind it. A value whose objects
have distinct keys is read back from its text, and sorting the keys changes the order
of members only.
-/

namespace OpsScripts.Json

/-! ## Characters -/

theorem hexValue_digitChar {d : Nat} (h : d < 16) : hexValue d.digitChar = some d := by
  have hall : ∀ d < 16, hexValue d.digitChar = some d := by decide
  exact hall d h

theorem readHex4_hex4 {n : Nat} (h : n < 65536) (rest : Text) :
    readHex4 (hex4 n ++ rest) = some (n, rest) := by
  have hdigit : ∀ m, hexValue (m % 16).digitChar = some (m % 16) :=
    fun m => hexValue_digitChar (Nat.mod_lt m (by decide))
  have hsum : 4096 * (n / 4096 % 16) + 256 * (n / 256 % 16) + 16 * (n / 16 % 16) + n % 16 = n := by
    omega
  simp only [hex4, List.cons_append, List.nil_append, readHex4, hdigit, Option.bind_eq_bind,
    Option.bind_some, hsum]

/-- A code unit outside the surrogates is a character. -/
theorem readUnit_hex4 {n : Nat} (h : n < 65536) (hsurrogate : ¬(0xD800 ≤ n ∧ n ≤ 0xDFFF))
    (rest : Text) : readUnit (hex4 n ++ rest) = some (Char.ofNat n, rest) := by
  have hhigh : ¬(0xD800 ≤ n ∧ n ≤ 0xDBFF) := by omega
  have hlow : ¬(0xDC00 ≤ n ∧ n ≤ 0xDFFF) := by omega
  simp only [readUnit, readHex4_hex4 h, Option.bind_eq_bind, Option.bind_some, if_neg hhigh,
    if_neg hlow]

/-- A pair of surrogates is a character beyond the basic plane. -/
theorem readUnit_pair {n : Nat} (h : n < 0x100000) (rest : Text) :
    readUnit (hex4 (0xD800 + n / 1024) ++ (escapeUnit (0xDC00 + n % 1024) ++ rest)) =
      some (Char.ofNat (0x10000 + n), rest) := by
  have hhigh : 0xD800 ≤ 0xD800 + n / 1024 ∧ 0xD800 + n / 1024 ≤ 0xDBFF := by omega
  have hlow : 0xDC00 ≤ 0xDC00 + n % 1024 ∧ 0xDC00 + n % 1024 ≤ 0xDFFF := by omega
  have hsum : 0x10000 + (0xD800 + n / 1024 - 0xD800) * 1024 + (0xDC00 + n % 1024 - 0xDC00) =
      0x10000 + n := by omega
  rw [readUnit, readHex4_hex4 (by omega)]
  simp only [Option.bind_eq_bind, Option.bind_some, if_pos hhigh, escapeUnit, List.cons_append,
    readLow, readHex4_hex4 (show 0xDC00 + n % 1024 < 65536 by omega), if_pos hlow, hsum]

/-- No character is a surrogate. -/
theorem toNat_notSurrogate (c : Char) : ¬(0xD800 ≤ c.toNat ∧ c.toNat ≤ 0xDFFF) := by
  have h := c.valid
  simp only [UInt32.isValidChar, Nat.isValidChar] at h
  change c.toNat < 0xD800 ∨ 0xDFFF < c.toNat ∧ c.toNat < 0x110000 at h
  omega

theorem toNat_lt (c : Char) : c.toNat < 0x110000 := by
  have h := c.valid
  simp only [UInt32.isValidChar, Nat.isValidChar] at h
  change c.toNat < 0xD800 ∨ 0xDFFF < c.toNat ∧ c.toNat < 0x110000 at h
  omega

/-- A character is read back. -/
theorem readChar_escape (c : Char) (rest : Text) :
    readChar (escape c ++ rest) = some (c, rest) := by
  unfold escape
  split_ifs with hquote hback hn hr ht hb hf hplain hbasic
  · subst hquote; rfl
  · subst hback; rfl
  · subst hn; rfl
  · subst hr; rfl
  · subst ht; rfl
  · subst hb; rfl
  · subst hf; rfl
  · have hcontrol : ¬c.toNat < 32 := by omega
    rw [List.singleton_append, readChar, if_neg hback, if_neg hcontrol]
  · rw [escapeUnit, List.cons_append, List.cons_append, readChar, if_pos rfl, readEscape,
      readUnit_hex4 hbasic (toNat_notSurrogate c), Char.ofNat_toNat]
  · have hlt := toNat_lt c
    have hsum : 0x10000 + (c.toNat - 0x10000) = c.toNat := by omega
    rw [List.append_assoc, escapeUnit, List.cons_append, List.cons_append, readChar, if_pos rfl,
      readEscape, readUnit_pair (by omega), hsum, Char.ofNat_toNat]

/-- The escape sequence of a character does not begin with a quotation mark. -/
theorem head?_escape (c : Char) : ∃ x ∈ (escape c).head?, x ≠ '"' := by
  unfold escape
  split_ifs with hquote hback
  all_goals first
    | exact ⟨'\\', rfl, by decide⟩
    | exact ⟨c, rfl, hquote⟩

/-! ## Strings -/

theorem readString_flatMap {n : Nat} {t : Text} (h : t.length < n) (rest : Text) :
    readString n (t.flatMap escape ++ '"' :: rest) = some (t, rest) := by
  induction n generalizing t with
  | zero => exact absurd h (Nat.not_lt_zero _)
  | succ n ih =>
    cases t with
    | nil => rfl
    | cons c t =>
      obtain ⟨x, hx, hne⟩ := head?_escape c
      have hhead : (escape c ++ (t.flatMap escape ++ '"' :: rest)).head? ≠ some '"' := by
        rw [List.head?_append, hx, Option.some_or]
        exact fun h => hne (Option.some.inj h)
      rw [List.flatMap_cons, List.append_assoc, readString, if_neg hhead, readChar_escape]
      simp only [Option.bind_eq_bind, Option.bind_some, ih (Nat.lt_of_succ_lt_succ h)]

theorem length_le_length_flatMap_escape (t : Text) : t.length ≤ (t.flatMap escape).length := by
  induction t with
  | nil => exact le_rfl
  | cons c t ih =>
    obtain ⟨x, hx, -⟩ := head?_escape c
    have hpos : 0 < (escape c).length := List.length_pos_of_mem (List.mem_of_head? hx)
    rw [List.flatMap_cons, List.length_append, List.length_cons]
    omega

/-- A string is read back up to its last quotation mark. -/
theorem readString_quote (t rest : Text) :
    readString (t.flatMap escape ++ '"' :: rest).length (t.flatMap escape ++ '"' :: rest) =
      some (t, rest) := by
  apply readString_flatMap
  have h := length_le_length_flatMap_escape t
  rw [List.length_append, List.length_cons]
  omega

/-! ## White space -/

theorem skip_newline (level : Nat) (t : Text) : skip (newline level ++ t) = skip t := by
  apply List.dropWhile_append_of_pos
  intro x hx
  rcases List.mem_cons.mp hx with rfl | hx
  · rfl
  · rw [List.eq_of_mem_replicate hx]
    rfl

theorem skip_of_head {t : Text} (h : ∀ x ∈ t.head?, x ∉ [' ', '\n', '\r', '\t']) : skip t = t := by
  cases t with
  | nil => rfl
  | cons x t =>
    have hx := h x rfl
    simp only [List.mem_cons, List.not_mem_nil, or_false, not_or] at hx
    rw [skip, List.dropWhile_cons_of_neg]
    simp [hx]

/-! ## Values -/

/-- The text behind a value does not go on with a digit. -/
def Ends (rest : Text) : Prop := ∀ x ∈ rest.head?, x.isDigit = false

theorem ends_cons {x : Char} (hx : x.isDigit = false) (rest : Text) : Ends (x :: rest) := by
  intro y hy
  obtain rfl : x = y := Option.some.inj hy
  exact hx

/-- The digits of a number are read up to the end of the number. -/
theorem takeWhile_toDigits (n : Nat) {rest : Text} (h : Ends rest) :
    (Nat.toDigits 10 n ++ rest).takeWhile Char.isDigit = Nat.toDigits 10 n ∧
      (Nat.toDigits 10 n ++ rest).dropWhile Char.isDigit = rest := by
  have hdigits : ∀ x ∈ Nat.toDigits 10 n, x.isDigit = true :=
    fun x hx => Nat.isDigit_of_mem_toDigits (by decide) (by decide) hx
  rw [List.takeWhile_append_of_pos hdigits, List.dropWhile_append_of_pos hdigits]
  cases rest with
  | nil => simp
  | cons x rest => simp [h x rfl]

/-- A value begins with none of these characters. -/
def outside : Text := [' ', '\n', '\r', '\t', ',', ']', '\x7d']

theorem isDigit_notMem_outside {x : Char} (h : x.isDigit = true) : x ∉ outside := by
  intro hx
  have hall : outside.all fun x => !x.isDigit := by decide
  have hx' := List.all_eq_true.mp hall x hx
  rw [h] at hx'
  exact Bool.false_ne_true hx'

theorem head?_literalText (l : Literal) : ∃ x ∈ (literalText l).head?, x ∉ outside := by
  cases l with
  | null => exact ⟨'n', rfl, by decide⟩
  | true => exact ⟨'t', rfl, by decide⟩
  | false => exact ⟨'f', rfl, by decide⟩

/-- The first character of a value. -/
theorem head?_print (level : Nat) (v : Json) : ∃ x ∈ (print level v).head?, x ∉ outside := by
  cases v with
  | lit l => exact head?_literalText l
  | num n =>
    rw [print]
    obtain ⟨x, ds, hx⟩ := List.exists_cons_of_ne_nil (Nat.toDigits_ne_nil (n := n) (b := 10))
    refine ⟨x, by rw [hx]; rfl, isDigit_notMem_outside ?_⟩
    exact Nat.isDigit_of_mem_toDigits (b := 10) (n := n) (by decide) (by decide)
      (by rw [hx]; exact List.mem_cons_self)
  | neg n => exact ⟨'-', rfl, by decide⟩
  | str t => exact ⟨'"', rfl, by decide⟩
  | arr vs => cases vs <;> exact ⟨'[', rfl, by decide⟩
  | obj ms => cases ms <;> exact ⟨'\x7b', rfl, by decide⟩

/-- No white space stands in front of a value. -/
theorem skip_print (level : Nat) (v : Json) (rest : Text) :
    skip (print level v ++ rest) = print level v ++ rest := by
  obtain ⟨x, hx, hout⟩ := head?_print level v
  apply skip_of_head
  intro y hy
  rw [List.head?_append, hx, Option.some_or] at hy
  obtain rfl : x = y := Option.some.inj hy
  intro hmem
  exact hout (List.mem_append_left [',', ']', '\x7d'] hmem)

theorem length_print_pos (level : Nat) (v : Json) : 0 < (print level v).length := by
  obtain ⟨x, hx, -⟩ := head?_print level v
  exact List.length_pos_of_mem (List.mem_of_head? hx)

/-! ## Keys -/

mutual

/-- The keys of every object inside a value satisfy a condition. -/
def AllKeys (P : List Text → Prop) : Json → Prop
  | lit _ => True
  | num _ => True
  | neg _ => True
  | str _ => True
  | arr vs => AllKeysItems P vs
  | obj ms => P (ms.map Prod.fst) ∧ AllKeysMembers P ms

/-- The keys inside every item satisfy a condition. -/
def AllKeysItems (P : List Text → Prop) : List Json → Prop
  | [] => True
  | v :: vs => AllKeys P v ∧ AllKeysItems P vs

/-- The keys inside every value of an object satisfy a condition. -/
def AllKeysMembers (P : List Text → Prop) : List (Text × Json) → Prop
  | [] => True
  | (_, v) :: ms => AllKeys P v ∧ AllKeysMembers P ms

end

theorem assign_of_notMem {k : Text} {ms : List (Text × Json)} (h : k ∉ ms.map Prod.fst) (v : Json) :
    assign k v ms = ms ++ [(k, v)] := by
  induction ms with
  | nil => rfl
  | cons m ms ih =>
    rw [List.map_cons, List.mem_cons, not_or] at h
    rw [assign, if_neg (Ne.symm h.1), ih h.2, List.cons_append]

/-- Members of distinct keys stay as they were read. -/
theorem members_of_nodup {ms : List (Text × Json)} (h : (ms.map Prod.fst).Nodup) :
    members ms = ms := by
  have hfold : ∀ done, ((done ++ ms).map Prod.fst).Nodup →
      ms.foldl (fun ms m => assign m.1 m.2 ms) done = done ++ ms := by
    clear h
    induction ms with
    | nil => exact fun done _ => (List.append_nil done).symm
    | cons m ms ih =>
      intro done h
      have hfresh : m.1 ∉ done.map Prod.fst := by
        intro hm
        rw [List.map_append] at h
        exact (List.nodup_append.mp h).2.2 m.1 hm m.1 List.mem_cons_self rfl
      rw [List.foldl_cons, assign_of_notMem hfresh, ih, List.append_assoc, List.singleton_append]
      rwa [List.append_assoc, List.singleton_append]
  exact hfold [] h

/-! ## Reading what was printed -/

theorem readValue_digit {x : Char} (hx : x.isDigit = true) (n : Nat) (t : Text) :
    readValue (n + 1) (x :: t) =
      some (num (Nat.ofDigitChars 10 ((x :: t).takeWhile Char.isDigit) 0),
        (x :: t).dropWhile Char.isDigit) := by
  have hne : ∀ y : Char, y.isDigit = false → x ≠ y := by
    rintro y hy rfl
    rw [hx] at hy
    exact Bool.false_ne_true hy.symm
  rw [readValue, if_neg (hne '"' (by decide)), if_neg (hne '[' (by decide)),
    if_neg (hne '\x7b' (by decide)), if_pos hx]

/-- A minus is read with the digits behind it. -/
theorem readValue_minus {k : Nat} (n : Nat) (rest : Text) :
    readValue (n + 1) ('-' :: (Nat.toDigits 10 k ++ rest)) =
      some (ofNegative (Nat.ofDigitChars 10
        ((Nat.toDigits 10 k ++ rest).takeWhile Char.isDigit) 0),
          (Nat.toDigits 10 k ++ rest).dropWhile Char.isDigit) := by
  obtain ⟨x, ds, hx⟩ := List.exists_cons_of_ne_nil (Nat.toDigits_ne_nil (n := k) (b := 10))
  have hdigit : x.isDigit = true := Nat.isDigit_of_mem_toDigits (b := 10) (n := k) (by decide)
    (by decide) (by rw [hx]; exact List.mem_cons_self)
  have hhead : ((Nat.toDigits 10 k ++ rest).head?.any Char.isDigit) = true := by
    rw [hx, List.cons_append, List.head?_cons, Option.any_some, hdigit]
  rw [readValue, if_neg (by decide), if_neg (by decide), if_neg (by decide), if_neg (by decide),
    if_pos ⟨rfl, hhead⟩]

/-- A literal is read whatever stands behind it. -/
theorem readValue_literal (l : Literal) (n : Nat) (rest : Text) :
    readValue (n + 1) (literalText l ++ rest) = some (lit l, rest) := by
  cases l <;> rfl

theorem readValue_bracket {n : Nat} {t : Text} (h : (skip t).head? ≠ some ']') :
    readValue (n + 1) ('[' :: t) = (readItems n t).map fun r => (arr r.1, r.2) := by
  rw [readValue, if_neg (by decide), if_pos rfl, if_neg h]
  cases readItems n t <;> rfl

theorem readValue_brace {n : Nat} {t : Text} (h : (skip t).head? ≠ some '\x7d') :
    readValue (n + 1) ('\x7b' :: t) = (readMembers n t).map fun r => (obj (members r.1), r.2) := by
  rw [readValue, if_neg (by decide), if_neg (by decide), if_pos rfl, if_neg h]
  cases readMembers n t <;> rfl

/-- The first item stands behind white space only. -/
theorem head?_skip_printItems (level : Nat) (v : Json) (vs : List Json) (rest : Text) :
    (skip (printItems level (v :: vs) ++ rest)).head? ≠ some ']' := by
  obtain ⟨x, hx, hout⟩ := head?_print level v
  rw [printItems, List.append_assoc, List.append_assoc, List.append_assoc, skip_newline,
    skip_print, List.head?_append, hx, Option.some_or]
  intro h
  rw [Option.some.inj h] at hout
  exact hout (by decide)

theorem head?_skip_printMembers (level : Nat) (m : Text × Json) (ms : List (Text × Json))
    (rest : Text) : (skip (printMembers level (m :: ms) ++ rest)).head? ≠ some '\x7d' := by
  rw [printMembers, List.append_assoc, List.append_assoc, List.append_assoc, List.append_assoc,
    skip_newline, quote, List.cons_append, skip_of_head]
  · simp
  · rintro x ⟨⟩
    decide

mutual

/-- A value is read back whatever stands behind it. -/
theorem readValue_print : ∀ (v : Json) {level n : Nat} {rest : Text}, AllKeys List.Nodup v →
    (print level v).length ≤ n → Ends rest → readValue n (print level v ++ rest) = some (v, rest)
  | v, level, 0, _, _, hn, _ => absurd hn (Nat.not_le_of_lt (length_print_pos level v))
  | .lit l, _, n + 1, rest, _, _, _ => readValue_literal l n rest
  | .num k, level, n + 1, rest, _, _, hrest => by
    obtain ⟨x, ds, hx⟩ := List.exists_cons_of_ne_nil (Nat.toDigits_ne_nil (n := k) (b := 10))
    have hdigit : x.isDigit = true := Nat.isDigit_of_mem_toDigits (b := 10) (n := k) (by decide)
      (by decide) (by rw [hx]; exact List.mem_cons_self)
    obtain ⟨htake, hdrop⟩ := takeWhile_toDigits k hrest
    rw [print, hx, List.cons_append, readValue_digit hdigit, ← List.cons_append, ← hx, htake,
      hdrop, Nat.ofDigitChars_toDigits (by decide) (by decide)]
  | .neg k, level, n + 1, rest, _, _, hrest => by
    obtain ⟨htake, hdrop⟩ := takeWhile_toDigits (k + 1) hrest
    rw [print, List.cons_append, readValue_minus, htake, hdrop,
      Nat.ofDigitChars_toDigits (by decide) (by decide)]
    rfl
  | .str t, level, n + 1, rest, _, _, _ => by
    rw [print, quote, List.cons_append, List.append_assoc, List.singleton_append, readValue,
      if_pos rfl, readString_quote]
    rfl
  | .arr [], level, n + 1, rest, _, _, _ => rfl
  | .arr (v :: vs), level, n + 1, rest, hkeys, hn, _ => by
    have hitems := @readItems_printItems (v :: vs) (level + 1) level n rest
      (List.cons_ne_nil v vs) hkeys
    simp only [print, List.length_cons, List.length_append] at hn
    rw [print, List.cons_append, List.append_assoc, List.singleton_append, List.append_assoc,
      readValue_bracket (head?_skip_printItems _ v vs _), ← List.append_assoc,
      hitems (by omega)]
    rfl
  | .obj [], level, n + 1, rest, _, _, _ => rfl
  | .obj (m :: ms), level, n + 1, rest, hkeys, hn, _ => by
    have hmembers := @readMembers_printMembers (m :: ms) (level + 1) level n rest
      (List.cons_ne_nil m ms) hkeys.2
    simp only [print, List.length_cons, List.length_append] at hn
    rw [print, List.cons_append, List.append_assoc, List.singleton_append, List.append_assoc,
      readValue_brace (head?_skip_printMembers _ m ms _), ← List.append_assoc,
      hmembers (by omega), Option.map_some, members_of_nodup hkeys.1]

theorem readItems_printItems : ∀ (vs : List Json) {level outer n : Nat} {rest : Text}, vs ≠ [] →
    AllKeysItems List.Nodup vs → (printItems level vs).length ≤ n →
    readItems n (printItems level vs ++ newline outer ++ ']' :: rest) = some (vs, rest)
  | [], _, _, _, _, h, _, _ => absurd rfl h
  | v :: vs, level, outer, 0, rest, _, hkeys, hn => by
    simp [printItems, newline] at hn
  | v :: vs, level, outer, n + 1, rest, _, hkeys, hn => by
    have hvs := fun h => @readItems_printItems vs level outer n rest h hkeys.2
    simp only [printItems, newline, List.length_append, List.length_cons] at hn
    have hv : ∀ {rest}, Ends rest → readValue n (print level v ++ rest) = some (v, rest) :=
      readValue_print v hkeys.1 (by omega)
    rw [printItems, readItems]
    simp only [List.append_assoc, skip_newline, skip_print]
    cases vs with
    | nil =>
      have hend : Ends (newline outer ++ ']' :: rest) := ends_cons (by decide) _
      simp only [List.isEmpty_nil, comma, if_true, printItems, List.nil_append, hv hend,
        Option.bind_eq_bind, Option.bind_some, skip_newline]
      rfl
    | cons w vs =>
      have hend := ends_cons (x := ',') (by decide)
        (printItems level (w :: vs) ++ (newline outer ++ ']' :: rest))
      have hcomma : (comma (w :: vs).isEmpty) = [','] := rfl
      simp only [hcomma, List.singleton_append, hv hend, Option.bind_eq_bind, Option.bind_some]
      rw [skip_of_head (by rintro x ⟨⟩; decide), ← List.append_assoc]
      simp only [hvs (List.cons_ne_nil w vs) (by omega), Option.bind_some]

theorem readMembers_printMembers : ∀ (ms : List (Text × Json)) {level outer n : Nat} {rest : Text},
    ms ≠ [] → AllKeysMembers List.Nodup ms → (printMembers level ms).length ≤ n →
    readMembers n (printMembers level ms ++ newline outer ++ '\x7d' :: rest) = some (ms, rest)
  | [], _, _, _, _, h, _, _ => absurd rfl h
  | (k, v) :: ms, level, outer, 0, rest, _, hkeys, hn => by
    simp [printMembers, newline] at hn
  | (k, v) :: ms, level, outer, n + 1, rest, _, hkeys, hn => by
    have hms := fun h => @readMembers_printMembers ms level outer n rest h hkeys.2
    simp only [printMembers, newline, List.length_append, List.length_cons] at hn
    have hv : ∀ {rest}, Ends rest → readValue n (print level v ++ rest) = some (v, rest) :=
      readValue_print v hkeys.1 (by omega)
    have hquote : ∀ t, skip (quote k ++ t) = '"' :: (k.flatMap escape ++ '"' :: t) := by
      intro t
      rw [quote, List.cons_append, List.append_assoc, List.singleton_append,
        skip_of_head (by rintro x ⟨⟩; decide)]
    have hcolon : ∀ t, skip (':' :: ' ' :: t) = ':' :: ' ' :: t :=
      fun t => skip_of_head (by rintro x ⟨⟩; decide)
    have hblank : ∀ t, skip (' ' :: (print level v ++ t)) = print level v ++ t :=
      fun t => skip_print level v t
    rw [printMembers, readMembers]
    simp only [List.append_assoc, List.cons_append, skip_newline, hquote, readString_quote,
      Option.bind_eq_bind, Option.bind_some, hcolon, hblank]
    cases ms with
    | nil =>
      have hend : Ends (newline outer ++ '\x7d' :: rest) := ends_cons (by decide) _
      simp only [List.isEmpty_nil, comma, if_true, printMembers, List.nil_append, hv hend,
        Option.bind_some, skip_newline]
      rfl
    | cons m ms =>
      have hend := ends_cons (x := ',') (by decide)
        (printMembers level (m :: ms) ++ (newline outer ++ '\x7d' :: rest))
      have hcomma : (comma (m :: ms).isEmpty) = [','] := rfl
      simp only [hcomma, List.singleton_append, hv hend, Option.bind_some]
      rw [skip_of_head (by rintro x ⟨⟩; decide), ← List.append_assoc]
      simp only [hms (List.cons_ne_nil m ms) (by omega), Option.bind_some]

end

/-- The text of a value is read back, with white space around it. -/
theorem loads_print {v : Json} (hkeys : AllKeys List.Nodup v) (level : Nat) {before after : Text}
    (hbefore : ∀ t, skip (before ++ t) = skip t) (hafter : skip after = []) (hend : Ends after) :
    loads (before ++ (print level v ++ after)) = some v := by
  have hlength : (print level v).length ≤ (before ++ (print level v ++ after)).length := by
    simp only [List.length_append]
    omega
  rw [loads, hbefore, skip_print, readValue_print v hkeys hlength hend]
  simp only [Option.bind_eq_bind, Option.bind_some, hafter, if_true]

/-! ## Sorted keys -/

theorem allKeysMembers_iff {P : List Text → Prop} {ms : List (Text × Json)} :
    AllKeysMembers P ms ↔ ∀ m ∈ ms, AllKeys P m.2 := by
  induction ms with
  | nil => simp [AllKeysMembers]
  | cons m ms ih => simp only [AllKeysMembers, ih, List.forall_mem_cons]

@[simp] theorem map_fst_sortMembers (ms : List (Text × Json)) :
    (sortMembers ms).map Prod.fst = ms.map Prod.fst := by
  induction ms with
  | nil => rfl
  | cons m ms ih => rw [sortMembers, List.map_cons, List.map_cons, ih]

mutual

/-- Sorting does not change which keys an object has. -/
theorem allKeys_sortKeys {P : List Text → Prop} (hP : ∀ ks ks', ks.Perm ks' → P ks → P ks') :
    ∀ {v : Json}, AllKeys P v → AllKeys P (sortKeys v)
  | .lit _, h => h
  | .num _, h => h
  | .neg _, h => h
  | .str _, h => h
  | .arr _, h => allKeysItems_sortItems hP h
  | .obj ms, h => by
    have hperm := (sortMembers ms).perm_insertionSort fun m m' => m.1 ≤ m'.1
    constructor
    · apply hP _ _ (hperm.map Prod.fst).symm
      rw [map_fst_sortMembers]
      exact h.1
    · rw [allKeysMembers_iff]
      intro m hm
      exact allKeysMembers_iff.mp (allKeysMembers_sortMembers hP h.2) m (hperm.mem_iff.mp hm)

theorem allKeysItems_sortItems {P : List Text → Prop} (hP : ∀ ks ks', ks.Perm ks' → P ks → P ks') :
    ∀ {vs : List Json}, AllKeysItems P vs → AllKeysItems P (sortItems vs)
  | [], h => h
  | _ :: _, h => ⟨allKeys_sortKeys hP h.1, allKeysItems_sortItems hP h.2⟩

theorem allKeysMembers_sortMembers {P : List Text → Prop}
    (hP : ∀ ks ks', ks.Perm ks' → P ks → P ks') : ∀ {ms : List (Text × Json)},
    AllKeysMembers P ms → AllKeysMembers P (sortMembers ms)
  | [], h => h
  | _ :: _, h => ⟨allKeys_sortKeys hP h.1, allKeysMembers_sortMembers hP h.2⟩

end

/-- The member of a key, when keys are distinct. -/
theorem find?_key_eq_some_iff {ms : List (Text × Json)} (h : (ms.map Prod.fst).Nodup) {k : Text}
    {m : Text × Json} : ms.find? (fun m => m.1 = k) = some m ↔ m ∈ ms ∧ m.1 = k := by
  induction ms with
  | nil => simp
  | cons n ms ih =>
    rw [List.map_cons, List.nodup_cons] at h
    by_cases hn : n.1 = k
    · rw [List.find?_cons_of_pos (by simpa using hn), List.mem_cons]
      constructor
      · rintro ⟨⟩
        exact ⟨Or.inl rfl, hn⟩
      · rintro ⟨rfl | hm, hk⟩
        · rfl
        · rw [hn, ← hk] at h
          exact absurd (List.mem_map_of_mem hm) h.1
    · rw [List.find?_cons_of_neg (by simpa using hn), ih h.2, List.mem_cons]
      constructor
      · exact fun hm => ⟨Or.inr hm.1, hm.2⟩
      · rintro ⟨rfl | hm, hk⟩
        · exact absurd hk hn
        · exact ⟨hm, hk⟩

/-- The value of a member, when keys are distinct. -/
theorem get_eq_some_of_mem {ms : List (Text × Json)} (h : (ms.map Prod.fst).Nodup) {k : Text}
    {v : Json} (hm : (k, v) ∈ ms) : (obj ms).get k = some v := by
  rw [get, (find?_key_eq_some_iff h).mpr ⟨hm, rfl⟩, Option.map_some]

/-- The value of a key does not depend on the order of the members. -/
theorem get_perm {ms ms' : List (Text × Json)} (hperm : ms.Perm ms')
    (h : (ms.map Prod.fst).Nodup) (k : Text) : (obj ms).get k = (obj ms').get k := by
  have h' : (ms'.map Prod.fst).Nodup := (hperm.map Prod.fst).nodup_iff.mp h
  have hfind : ms.find? (fun m => m.1 = k) = ms'.find? fun m => m.1 = k := by
    ext m
    rw [find?_key_eq_some_iff h, find?_key_eq_some_iff h', hperm.mem_iff]
  rw [get, get, hfind]

theorem sortItems_eq_map (vs : List Json) : sortItems vs = vs.map sortKeys := by
  induction vs with
  | nil => rfl
  | cons v vs ih => rw [sortItems, ih, List.map_cons]

/-- Under sorted keys a key has the same value, with its own keys sorted. -/
theorem get_sortKeys {ms : List (Text × Json)} (h : (ms.map Prod.fst).Nodup) (k : Text) :
    (obj ms).sortKeys.get k = ((obj ms).get k).map sortKeys := by
  have hfind : (sortMembers ms).find? (fun m => m.1 = k) =
      (ms.find? fun m => m.1 = k).map fun m => (m.1, sortKeys m.2) := by
    clear h
    induction ms with
    | nil => rfl
    | cons m ms ih =>
      by_cases hm : m.1 = k
      · rw [sortMembers, List.find?_cons_of_pos (by simpa using hm),
          List.find?_cons_of_pos (by simpa using hm), Option.map_some]
      · rw [sortMembers, List.find?_cons_of_neg (by simpa using hm),
          List.find?_cons_of_neg (by simpa using hm), ih]
  have hperm := (sortMembers ms).perm_insertionSort fun m m' => m.1 ≤ m'.1
  rw [sortKeys, ← get_perm hperm.symm (by rwa [map_fst_sortMembers]), get, get, hfind,
    Option.map_map, Option.map_map]
  rfl

end OpsScripts.Json
