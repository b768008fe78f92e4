import OpsScripts.Core.JsonStrings

/-!
# Texts of values

`IsValue v t` says that `t` is a text of `v`, with any white space between its parts and any
spelling of its strings. What a program prints is read back as soon as it is such a text, so a
round trip only has to derive it. `Style.compact` prints without line breaks; the blanks behind
the separators and the escape sequences are those of a program.
-/

namespace OpsScripts.Json

/-! ## The grammar -/

/-- White space. -/
def Blank (w : Text) : Prop := ∀ c ∈ w, c ∈ [' ', '\n', '\r', '\t']

instance (w : Text) : Decidable (Blank w) :=
  inferInstanceAs (Decidable (∀ c ∈ w, c ∈ [' ', '\n', '\r', '\t']))

/-- A text that is read as a character inside a string. -/
def Spelling (c : Char) (t : Text) : Prop :=
  (∃ x ∈ t.head?, x ≠ '"') ∧ ∀ rest, readChar (t ++ rest) = some (c, rest)

/-- A text that stands for a string between its quotation marks. -/
inductive Spells : Text → Text → Prop
  | nil : Spells [] []
  | cons {c : Char} {s t u : Text} (hc : Spelling c t) (hs : Spells s u) :
      Spells (c :: s) (t ++ u)

mutual

/-- A text of a value. -/
inductive IsValue : Json → Text → Prop
  | lit (l : Literal) : IsValue (lit l) (literalText l)
  | num (n : Nat) : IsValue (num n) (Nat.toDigits 10 n)
  | neg (n : Nat) : IsValue (neg n) ('-' :: Nat.toDigits 10 (n + 1))
  | str {s t : Text} (hs : Spells s t) : IsValue (str s) ('"' :: (t ++ ['"']))
  | noItems {w : Text} (hw : Blank w) : IsValue (arr []) ('[' :: (w ++ [']']))
  | arr {vs : List Json} {t : Text} (hvs : IsItems vs t) : IsValue (arr vs) ('[' :: (t ++ [']']))
  | noMembers {w : Text} (hw : Blank w) : IsValue (obj []) ('\x7b' :: (w ++ ['\x7d']))
  | obj {ms : List (Text × Json)} {t : Text} (hms : IsMembers ms t) :
      IsValue (obj (members ms)) ('\x7b' :: (t ++ ['\x7d']))

/-- A text of the items of an array. -/
inductive IsItems : List Json → Text → Prop
  | last {v : Json} {a t b : Text} (ha : Blank a) (hv : IsValue v t) (hb : Blank b) :
      IsItems [v] (a ++ (t ++ b))
  | cons {v : Json} {vs : List Json} {a t b u : Text} (ha : Blank a) (hv : IsValue v t)
      (hb : Blank b) (hvs : IsItems vs u) : IsItems (v :: vs) (a ++ (t ++ (b ++ ',' :: u)))

/-- A text of the members of an object. -/
inductive IsMembers : List (Text × Json) → Text → Prop
  | last {m : Text × Json} {t b : Text} (hm : IsMember m t) (hb : Blank b) :
      IsMembers [m] (t ++ b)
  | cons {m : Text × Json} {ms : List (Text × Json)} {t b u : Text} (hm : IsMember m t)
      (hb : Blank b) (hms : IsMembers ms u) : IsMembers (m :: ms) (t ++ (b ++ ',' :: u))

/-- A text of a key and its value. -/
inductive IsMember : Text × Json → Text → Prop
  | mk {k : Text} {v : Json} {a s b c t : Text} (ha : Blank a) (hk : Spells k s) (hb : Blank b)
      (hc : Blank c) (hv : IsValue v t) :
      IsMember (k, v) (a ++ '"' :: (s ++ '"' :: (b ++ ':' :: (c ++ t))))

end

/-! ## White space and strings -/

theorem blank_nil : Blank [] := fun _ hc => absurd hc List.not_mem_nil

theorem skip_blank {w : Text} (hw : Blank w) (t : Text) : skip (w ++ t) = skip t := by
  apply List.dropWhile_append_of_pos
  intro c hc
  have hc := hw c hc
  simp only [List.mem_cons, List.not_mem_nil, or_false] at hc
  rcases hc with rfl | rfl | rfl | rfl <;> rfl

theorem skip_blank_cons {w : Text} (hw : Blank w) {x : Char} (hx : x ∉ [' ', '\n', '\r', '\t'])
    (t : Text) : skip (w ++ x :: t) = x :: t := by
  rw [skip_blank hw, skip_of_head]
  intro y hy
  obtain rfl : x = y := Option.some.inj hy
  exact hx

/-- White space ends a number. -/
theorem ends_blank {w : Text} (hw : Blank w) {t : Text} (ht : Ends t) : Ends (w ++ t) := by
  cases w with
  | nil => exact ht
  | cons y w =>
    apply ends_cons
    have hy := hw y List.mem_cons_self
    simp only [List.mem_cons, List.not_mem_nil, or_false] at hy
    rcases hy with rfl | rfl | rfl | rfl <;> rfl

theorem ends_blank_cons {w : Text} (hw : Blank w) {x : Char} (hx : x.isDigit = false) (t : Text) :
    Ends (w ++ x :: t) :=
  ends_blank hw (ends_cons hx t)

theorem length_le_of_spells {s t : Text} (h : Spells s t) : s.length ≤ t.length := by
  induction h with
  | nil => exact le_rfl
  | cons hc _ ih =>
    obtain ⟨x, hx, -⟩ := hc.1
    have hpos := List.length_pos_of_mem (List.mem_of_head? hx)
    rw [List.length_cons, List.length_append]
    omega

/-- A spelled string is read up to the quotation mark behind it. -/
theorem readString_spells {n : Nat} {s t : Text} (h : Spells s t) (hn : s.length < n)
    (rest : Text) : readString n (t ++ '"' :: rest) = some (s, rest) := by
  induction h generalizing n with
  | nil =>
    obtain ⟨n, rfl⟩ := Nat.exists_eq_succ_of_ne_zero (Nat.ne_of_gt hn)
    rfl
  | @cons c s t u hc _ ih =>
    obtain ⟨n, rfl⟩ := Nat.exists_eq_succ_of_ne_zero (Nat.ne_of_gt (Nat.zero_lt_of_lt hn))
    obtain ⟨⟨x, hx, hne⟩, hread⟩ := hc
    have hhead : (t ++ (u ++ '"' :: rest)).head? ≠ some '"' := by
      rw [List.head?_append, Option.mem_def.mp hx, Option.some_or]
      exact fun h => hne (Option.some.inj h)
    rw [List.append_assoc, readString, if_neg hhead, hread]
    simp only [Option.bind_eq_bind, Option.bind_some, ih (Nat.lt_of_succ_lt_succ hn)]

/-- Every letter has its own spelling. -/
theorem spells_flatMap {escape : Char → Text} (hescape : ∀ c, Spelling c (escape c)) (s : Text) :
    Spells s (s.flatMap escape) := by
  induction s with
  | nil => exact Spells.nil
  | cons c s ih => exact Spells.cons (hescape c) ih

/-! ## Reading -/

/-- The first character of a value. -/
theorem IsValue.head {v : Json} {t : Text} (h : IsValue v t) : ∃ x ∈ t.head?, x ∉ outside := by
  cases h with
  | lit l => exact head?_literalText l
  | num n =>
    obtain ⟨x, ds, hx⟩ := List.exists_cons_of_ne_nil (Nat.toDigits_ne_nil (n := n) (b := 10))
    refine ⟨x, by rw [hx]; rfl, isDigit_notMem_outside ?_⟩
    exact Nat.isDigit_of_mem_toDigits (b := 10) (n := n) (by decide) (by decide)
      (by rw [hx]; exact List.mem_cons_self)
  | neg n => exact ⟨'-', rfl, by decide⟩
  | str hs => exact ⟨'"', rfl, by decide⟩
  | noItems hw => exact ⟨'[', rfl, by decide⟩
  | arr hvs => exact ⟨'[', rfl, by decide⟩
  | noMembers hw => exact ⟨'\x7b', rfl, by decide⟩
  | obj hms => exact ⟨'\x7b', rfl, by decide⟩

theorem IsValue.length_pos {v : Json} {t : Text} (h : IsValue v t) : 0 < t.length := by
  obtain ⟨x, hx, -⟩ := h.head
  exact List.length_pos_of_mem (List.mem_of_head? hx)

/-- White space in front of a value is skipped, nothing else is. -/
theorem IsValue.skip {v : Json} {t w : Text} (h : IsValue v t) (hw : Blank w) (rest : Text) :
    skip (w ++ (t ++ rest)) = t ++ rest := by
  obtain ⟨x, hx, hout⟩ := h.head
  rw [skip_blank hw, skip_of_head]
  intro y hy
  rw [List.head?_append, Option.mem_def.mp hx, Option.some_or] at hy
  obtain rfl : x = y := Option.some.inj hy
  exact fun hmem => hout (List.mem_append_left [',', ']', '\x7d'] hmem)

/-- The first item stands behind white space only. -/
theorem IsItems.head {vs : List Json} {t : Text} (h : IsItems vs t) (rest : Text) :
    (Json.skip (t ++ rest)).head? ≠ some ']' := by
  have hvalue : ∀ {v a u} (tail : Text), Blank a → IsValue v u →
      (Json.skip (a ++ (u ++ tail))).head? ≠ some ']' := by
    intro v a u tail ha hv
    obtain ⟨x, hx, hout⟩ := hv.head
    rw [hv.skip ha, List.head?_append, Option.mem_def.mp hx, Option.some_or]
    intro h
    rw [Option.some.inj h] at hout
    exact hout (by decide)
  cases h with
  | last ha hv hb =>
    rw [List.append_assoc, List.append_assoc]
    exact hvalue _ ha hv
  | cons ha hv hb hvs =>
    rw [List.append_assoc, List.append_assoc]
    exact hvalue _ ha hv

/-- The first key stands behind white space only. -/
theorem IsMembers.head {ms : List (Text × Json)} {t : Text} (h : IsMembers ms t) (rest : Text) :
    (Json.skip (t ++ rest)).head? ≠ some '\x7d' := by
  have hkey : ∀ {m u} (tail : Text), IsMember m u →
      (Json.skip (u ++ tail)).head? ≠ some '\x7d' := by
    intro m u tail hm
    cases hm with
    | mk ha hk hb hc hv =>
      rw [List.append_assoc, List.cons_append, skip_blank_cons ha (by decide)]
      simp
  cases h with
  | last hm hb =>
    rw [List.append_assoc]
    exact hkey _ hm
  | cons hm hb hms =>
    rw [List.append_assoc]
    exact hkey _ hm

section Fuel

/-- A text of a value is read with enough fuel. -/
def ValueReads (n : Nat) : Prop := ∀ v t rest, IsValue v t → t.length ≤ n → Ends rest →
  readValue n (t ++ rest) = some (v, rest)

/-- A text of items is read up to the bracket. -/
def ItemsReads (n : Nat) : Prop := ∀ vs t rest, IsItems vs t → t.length < n →
  readItems n (t ++ ']' :: rest) = some (vs, rest)

/-- A text of members is read up to the brace. -/
def MembersReads (n : Nat) : Prop := ∀ ms t rest, IsMembers ms t → t.length < n →
  readMembers n (t ++ '\x7d' :: rest) = some (ms, rest)

variable {n : Nat}

theorem valueReads_succ (hitems : ItemsReads n) (hmembers : MembersReads n) :
    ValueReads (n + 1) := by
  intro v t rest h hn hrest
  cases h with
  | lit l => exact readValue_literal l n rest
  | num k =>
    obtain ⟨x, ds, hx⟩ := List.exists_cons_of_ne_nil (Nat.toDigits_ne_nil (n := k) (b := 10))
    have hdigit : x.isDigit = true := Nat.isDigit_of_mem_toDigits (b := 10) (n := k) (by decide)
      (by decide) (by rw [hx]; exact List.mem_cons_self)
    obtain ⟨htake, hdrop⟩ := takeWhile_toDigits k hrest
    rw [hx, List.cons_append, readValue_digit hdigit, ← List.cons_append, ← hx, htake, hdrop,
      Nat.ofDigitChars_toDigits (by decide) (by decide)]
  | neg k =>
    obtain ⟨htake, hdrop⟩ := takeWhile_toDigits (k + 1) hrest
    rw [List.cons_append, readValue_minus, htake, hdrop,
      Nat.ofDigitChars_toDigits (by decide) (by decide)]
    rfl
  | @str s t hs =>
    have hlength : s.length < (t ++ '"' :: rest).length := by
      have hle := length_le_of_spells hs
      rw [List.length_append, List.length_cons]
      omega
    rw [List.cons_append, List.append_assoc, List.singleton_append, readValue, if_pos rfl,
      readString_spells hs hlength]
    rfl
  | noItems hw =>
    rw [List.cons_append, List.append_assoc, List.singleton_append, readValue,
      if_neg (by decide), if_pos rfl, skip_blank_cons hw (by decide)]
    rfl
  | arr hvs =>
    simp only [List.length_cons, List.length_append] at hn
    rw [List.cons_append, List.append_assoc, List.singleton_append,
      readValue_bracket (hvs.head _), hitems _ _ _ hvs (by omega)]
    rfl
  | noMembers hw =>
    rw [List.cons_append, List.append_assoc, List.singleton_append, readValue,
      if_neg (by decide), if_neg (by decide), if_pos rfl, skip_blank_cons hw (by decide)]
    rfl
  | obj hms =>
    simp only [List.length_cons, List.length_append] at hn
    rw [List.cons_append, List.append_assoc, List.singleton_append,
      readValue_brace (hms.head _), hmembers _ _ _ hms (by omega)]
    rfl

theorem itemsReads_succ (hvalue : ValueReads n) (hitems : ItemsReads n) : ItemsReads (n + 1) := by
  intro vs t rest h hn
  cases h with
  | last ha hv hb =>
    simp only [List.length_append] at hn
    rw [readItems, List.append_assoc, List.append_assoc, hv.skip ha,
      hvalue _ _ _ hv (by omega) (ends_blank_cons hb (by decide) rest)]
    simp only [Option.bind_eq_bind, Option.bind_some, skip_blank_cons hb (x := ']') (by decide)]
  | @cons v vs a t b u ha hv hb hvs =>
    simp only [List.length_append, List.length_cons] at hn
    have htext : a ++ (t ++ (b ++ ',' :: u)) ++ ']' :: rest =
        a ++ (t ++ (b ++ ',' :: (u ++ ']' :: rest))) := by
      simp only [List.append_assoc, List.cons_append]
    rw [readItems, htext, hv.skip ha,
      hvalue _ _ _ hv (by omega) (ends_blank_cons hb (by decide) _)]
    simp only [Option.bind_eq_bind, Option.bind_some, skip_blank_cons hb (x := ',') (by decide),
      hitems _ _ rest hvs (by omega)]

/-- A key is read with its value; what stands behind them is not looked at. -/
theorem readMembers_member {m : Text × Json} {t : Text} (hm : IsMember m t)
    (hvalue : ValueReads n) (hn : t.length ≤ n) {rest : Text} (hrest : Ends rest) :
    readMembers (n + 1) (t ++ rest) = behindMember n m.1 (m.2, rest) := by
  cases hm with
  | @mk k v a s b c t ha hk hb hc hv =>
    simp only [List.length_append, List.length_cons] at hn
    have hlength : k.length < (s ++ '"' :: (b ++ ':' :: (c ++ (t ++ rest)))).length := by
      have hle := length_le_of_spells hk
      rw [List.length_append, List.length_cons]
      omega
    have htext : a ++ '"' :: (s ++ '"' :: (b ++ ':' :: (c ++ t))) ++ rest =
        a ++ '"' :: (s ++ '"' :: (b ++ ':' :: (c ++ (t ++ rest)))) := by
      simp only [List.append_assoc, List.cons_append]
    rw [htext, readMembers, skip_blank_cons ha (by decide)]
    simp only [readString_spells hk hlength, Option.bind_eq_bind, Option.bind_some,
      skip_blank_cons hb (x := ':') (by decide), hv.skip hc,
      hvalue _ _ _ hv (by omega) hrest]
    rfl

/-- Behind the last member stands the brace. -/
theorem behindMember_brace {b : Text} (hb : Blank b) (m : Text × Json) (rest : Text) :
    behindMember n m.1 (m.2, b ++ '\x7d' :: rest) = some ([m], rest) := by
  simp only [behindMember, skip_blank_cons hb (x := '\x7d') (by decide)]

/-- Behind another member stands a comma. -/
theorem behindMember_comma {b : Text} (hb : Blank b) (m : Text × Json) (t : Text) :
    behindMember n m.1 (m.2, b ++ ',' :: t) =
      (readMembers n t).bind fun r => some (m :: r.1, r.2) := by
  simp only [behindMember, skip_blank_cons hb (x := ',') (by decide)]

theorem membersReads_succ (hvalue : ValueReads n) (hmembers : MembersReads n) :
    MembersReads (n + 1) := by
  intro ms t rest h hn
  cases h with
  | last hm hb =>
    simp only [List.length_append] at hn
    rw [List.append_assoc, readMembers_member hm hvalue (by omega)
      (ends_blank_cons hb (by decide) rest), behindMember_brace hb]
  | @cons m ms t b u hm hb hms =>
    simp only [List.length_append, List.length_cons] at hn
    have htext : t ++ (b ++ ',' :: u) ++ '\x7d' :: rest =
        t ++ (b ++ ',' :: (u ++ '\x7d' :: rest)) := by
      simp only [List.append_assoc, List.cons_append]
    rw [htext, readMembers_member hm hvalue (by omega) (ends_blank_cons hb (by decide) _),
      behindMember_comma hb, hmembers _ _ rest hms (by omega)]
    rfl

/-- Each kind of text is read by the fuel for its length. -/
theorem reads (n : Nat) : ValueReads n ∧ ItemsReads n ∧ MembersReads n := by
  induction n with
  | zero =>
    refine ⟨fun v t rest h hn _ => ?_, fun _ _ _ _ hn => ?_, fun _ _ _ _ hn => ?_⟩
    · exact absurd hn (Nat.not_le_of_lt h.length_pos)
    · exact absurd hn (Nat.not_lt_zero _)
    · exact absurd hn (Nat.not_lt_zero _)
  | succ n ih =>
    obtain ⟨hvalue, hitems, hmembers⟩ := ih
    exact ⟨valueReads_succ hitems hmembers, itemsReads_succ hvalue hitems,
      membersReads_succ hvalue hmembers⟩

end Fuel

/-- A text of a value is read as the value, with white space around it. -/
theorem loads_of_isValue {v : Json} {t a b : Text} (h : IsValue v t) (ha : Blank a)
    (hb : Blank b) : loads (a ++ (t ++ b)) = some v := by
  have hlength : t.length ≤ (a ++ (t ++ b)).length := by
    simp only [List.length_append]
    omega
  have hnil : Ends [] := fun x hx => absurd hx (Option.not_mem_none x)
  have hend := ends_blank hb hnil
  have hskip : Json.skip (b ++ []) = [] := skip_blank hb []
  rw [List.append_nil] at hend hskip
  rw [loads, h.skip ha, (reads _).1 _ _ _ h hlength hend]
  simp only [Option.bind_eq_bind, Option.bind_some, hskip, if_true]

/-! ## Printing on one line -/

/-- The blanks behind the separators and the escape sequences of a program. -/
structure Style where
  behindComma : Text
  behindColon : Text
  escape : Char → Text
  blank_comma : Blank behindComma
  blank_colon : Blank behindColon
  spelling : ∀ c, Spelling c (escape c)

namespace Style

variable (S : Style)

/-- A string between quotation marks. -/
def quote (t : Text) : Text := '"' :: (t.flatMap S.escape ++ ['"'])

mutual

/-- A value on one line. -/
def compact : Json → Text
  | lit l => literalText l
  | num n => Nat.toDigits 10 n
  | neg n => '-' :: Nat.toDigits 10 (n + 1)
  | str t => S.quote t
  | arr vs => '[' :: (compactItems vs ++ [']'])
  | obj ms => '\x7b' :: (compactMembers ms ++ ['\x7d'])

/-- The items of an array. -/
def compactItems : List Json → Text
  | [] => []
  | [v] => compact v
  | v :: w :: vs => compact v ++ ',' :: (S.behindComma ++ compactItems (w :: vs))

/-- The members of an object. -/
def compactMembers : List (Text × Json) → Text
  | [] => []
  | [(k, v)] => S.quote k ++ ':' :: (S.behindColon ++ compact v)
  | (k, v) :: m :: ms => S.quote k ++ ':' :: (S.behindColon ++ compact v) ++
      ',' :: (S.behindComma ++ compactMembers (m :: ms))

end

/-- A string is spelled letter by letter. -/
theorem isValue_quote (t : Text) : IsValue (str t) (S.quote t) :=
  IsValue.str (spells_flatMap S.spelling t)

/-- A key with the text of its value. -/
theorem isMember_quote (k : Text) {v : Json} {a t : Text} (ha : Blank a) (hv : IsValue v t) :
    IsMember (k, v) (a ++ (S.quote k ++ ':' :: (S.behindColon ++ t))) := by
  have hmember := IsMember.mk ha (spells_flatMap S.spelling k) blank_nil S.blank_colon hv
  rw [quote, List.cons_append, List.append_assoc]
  exact hmember

mutual

/-- What is printed on one line is a text of the value. -/
theorem isValue_compact : ∀ {v : Json}, AllKeys List.Nodup v → IsValue v (S.compact v)
  | .lit l, _ => IsValue.lit l
  | .num n, _ => IsValue.num n
  | .neg n, _ => IsValue.neg n
  | .str t, _ => S.isValue_quote t
  | .arr [], _ => IsValue.noItems blank_nil
  | .arr (v :: vs), h => IsValue.arr (isItems_compact blank_nil (List.cons_ne_nil v vs) h)
  | .obj [], _ => IsValue.noMembers blank_nil
  | .obj (m :: ms), h => by
    have hms := isMembers_compact blank_nil (List.cons_ne_nil m ms) h.2
    have hvalue := IsValue.obj hms
    rwa [members_of_nodup h.1] at hvalue

theorem isItems_compact : ∀ {vs : List Json} {a : Text}, Blank a → vs ≠ [] →
    AllKeysItems List.Nodup vs → IsItems vs (a ++ S.compactItems vs)
  | [], _, _, hne, _ => absurd rfl hne
  | [v], a, ha, _, h => by
    have hlast := IsItems.last ha (isValue_compact h.1) blank_nil
    rwa [List.append_nil] at hlast
  | v :: w :: vs, a, ha, _, h => by
    have hvs := isItems_compact S.blank_comma (List.cons_ne_nil w vs) h.2
    exact IsItems.cons ha (isValue_compact h.1) blank_nil hvs

theorem isMembers_compact : ∀ {ms : List (Text × Json)} {a : Text}, Blank a → ms ≠ [] →
    AllKeysMembers List.Nodup ms → IsMembers ms (a ++ S.compactMembers ms)
  | [], _, _, hne, _ => absurd rfl hne
  | [(k, v)], a, ha, _, h => by
    have hlast := IsMembers.last (S.isMember_quote k ha (isValue_compact h.1)) blank_nil
    rwa [List.append_nil] at hlast
  | (k, v) :: m :: ms, a, ha, _, h => by
    have hms := isMembers_compact S.blank_comma (List.cons_ne_nil m ms) h.2
    have hcons := IsMembers.cons (S.isMember_quote k ha (isValue_compact h.1)) blank_nil hms
    rwa [List.append_assoc] at hcons

end

/-- What is printed on one line is read back, with white space around it. -/
theorem loads_compact {v : Json} (h : AllKeys List.Nodup v) {a b : Text} (ha : Blank a)
    (hb : Blank b) : loads (a ++ (S.compact v ++ b)) = some v :=
  loads_of_isValue (S.isValue_compact h) ha hb

end Style

/-! ## Deleting letters from a text -/

mutual

/-- A function is applied to all strings and keys. -/
def mapText (f : Text → Text) : Json → Json
  | lit l => lit l
  | num n => num n
  | neg n => neg n
  | str t => str (f t)
  | arr vs => arr (mapItems f vs)
  | obj ms => obj (mapMembers f ms)

/-- A function is applied to the strings inside the items. -/
def mapItems (f : Text → Text) : List Json → List Json
  | [] => []
  | v :: vs => mapText f v :: mapItems f vs

/-- A function is applied to the keys and the strings inside the values. -/
def mapMembers (f : Text → Text) : List (Text × Json) → List (Text × Json)
  | [] => []
  | (k, v) :: ms => (f k, mapText f v) :: mapMembers f ms

end

theorem mapItems_eq_map (f : Text → Text) (vs : List Json) :
    mapItems f vs = vs.map (mapText f) := by
  induction vs with
  | nil => rfl
  | cons v vs ih => rw [mapItems, ih, List.map_cons]

theorem mapMembers_eq_map (f : Text → Text) (ms : List (Text × Json)) :
    mapMembers f ms = ms.map fun m => (f m.1, mapText f m.2) := by
  induction ms with
  | nil => rfl
  | cons m ms ih => rw [mapMembers, ih, List.map_cons]

/-- The value of a key, if the function leaves the keys. -/
theorem get_mapText {f : Text → Text} {ms : List (Text × Json)} (h : ∀ m ∈ ms, f m.1 = m.1)
    (k : Text) : ((obj ms).mapText f).get k = ((obj ms).get k).map (mapText f) := by
  rw [mapText, mapMembers_eq_map, get, get]
  induction ms with
  | nil => rfl
  | cons m ms ih =>
    rw [List.forall_mem_cons] at h
    rw [List.map_cons, h.1]
    by_cases hm : m.1 = k
    · rw [List.find?_cons_of_pos (by simpa using hm), List.find?_cons_of_pos (by simpa using hm)]
      rfl
    · rw [List.find?_cons_of_neg (by simpa using hm), List.find?_cons_of_neg (by simpa using hm)]
      exact ih h.2

/-- The characters of a value outside its strings: the digits, the brackets and separators, and
the letters of the literals. -/
def isSyntax (c : Char) : Bool :=
  c.isDigit || "[]\x7b\x7d,:\"-".toList.contains c || "nultrefas".toList.contains c

/-- Deleting letters turns the spelling of one style into that of another, and leaves the syntax. -/
structure Deletes (S S' : Style) (p : Char → Bool) : Prop where
  isSyntax : ∀ c, Json.isSyntax c = true → p c = true
  behindComma : S.behindComma.filter p = S'.behindComma
  behindColon : S.behindColon.filter p = S'.behindColon
  escape : ∀ c, (S.escape c).filter p = if p c then S'.escape c else []

namespace Deletes

variable {S S' : Style} {p : Char → Bool} (h : Deletes S S' p)

include h

theorem filter_quote (t : Text) : (S.quote t).filter p = S'.quote (t.filter p) := by
  have hquote : p '"' = true := h.isSyntax '"' (by decide)
  have hletters : (t.flatMap S.escape).filter p = (t.filter p).flatMap S'.escape := by
    induction t with
    | nil => rfl
    | cons c t ih =>
      rw [List.flatMap_cons, List.filter_append, ih, h.escape, List.filter_cons]
      split_ifs
      · rw [List.flatMap_cons]
      · rfl
  rw [Style.quote, Style.quote, List.filter_cons_of_pos hquote, List.filter_append, hletters,
    List.filter_singleton, hquote]
  rfl

theorem filter_toDigits (n : Nat) : (Nat.toDigits 10 n).filter p = Nat.toDigits 10 n := by
  rw [List.filter_eq_self]
  intro c hc
  have hdigit := Nat.isDigit_of_mem_toDigits (b := 10) (n := n) (by decide) (by decide) hc
  exact h.isSyntax c (by rw [Json.isSyntax, hdigit, Bool.true_or, Bool.true_or])

theorem filter_literalText (l : Literal) : (literalText l).filter p = literalText l := by
  have hletters : ∀ c ∈ literalText l, Json.isSyntax c = true := by
    cases l <;> decide
  exact List.filter_eq_self.mpr fun c hc => h.isSyntax c (hletters c hc)

mutual

/-- What is deleted from a text is deleted from the strings of its value. -/
theorem filter_compact : ∀ v : Json,
    (S.compact v).filter p = S'.compact (v.mapText fun t => t.filter p)
  | .lit l => h.filter_literalText l
  | .num n => h.filter_toDigits n
  | .neg n => by
    rw [Style.compact, List.filter_cons_of_pos (h.isSyntax '-' (by decide)), h.filter_toDigits]
    rfl
  | .str t => h.filter_quote t
  | .arr vs => by
    rw [Style.compact, List.filter_cons_of_pos (h.isSyntax '[' (by decide)), List.filter_append,
      filter_compactItems vs, List.filter_cons_of_pos (h.isSyntax ']' (by decide))]
    rfl
  | .obj ms => by
    rw [Style.compact, List.filter_cons_of_pos (h.isSyntax '\x7b' (by decide)),
      List.filter_append, filter_compactMembers ms,
      List.filter_cons_of_pos (h.isSyntax '\x7d' (by decide))]
    rfl

theorem filter_compactItems : ∀ vs : List Json,
    (S.compactItems vs).filter p = S'.compactItems (mapItems (fun t => t.filter p) vs)
  | [] => rfl
  | [v] => filter_compact v
  | v :: w :: vs => by
    rw [Style.compactItems, List.filter_append, filter_compact v,
      List.filter_cons_of_pos (h.isSyntax ',' (by decide)), List.filter_append, h.behindComma,
      filter_compactItems (w :: vs)]
    rfl

theorem filter_compactMembers : ∀ ms : List (Text × Json),
    (S.compactMembers ms).filter p = S'.compactMembers (mapMembers (fun t => t.filter p) ms)
  | [] => rfl
  | [(k, v)] => by
    rw [Style.compactMembers, List.filter_append, h.filter_quote,
      List.filter_cons_of_pos (h.isSyntax ':' (by decide)), List.filter_append, h.behindColon,
      filter_compact v]
    rfl
  | (k, v) :: m :: ms => by
    rw [Style.compactMembers, List.filter_append, List.filter_append, h.filter_quote,
      List.filter_cons_of_pos (h.isSyntax ':' (by decide)), List.filter_append, h.behindColon,
      filter_compact v, List.filter_cons_of_pos (h.isSyntax ',' (by decide)),
      List.filter_append, h.behindComma, filter_compactMembers (m :: ms)]
    rfl

end

end Deletes

end OpsScripts.Json
