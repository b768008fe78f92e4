import OpsScripts.Core.Text

/-!
# Wildcard patterns

The patterns of `-like`: a star for any text, a question mark for any letter,
a bracket expression for a letter of its ranges, a backtick before a letter
that stands for itself. Letters are compared without case. A bracket that is
never closed or a range that runs backwards makes the pattern invalid; the
operator then raises an error and the filter or condition it stands in does not
hold, so it counts as no match.
-/

namespace OpsScripts

namespace Wildcard

/-- One element of a pattern. -/
inductive Element where
  | any
  | one
  | letter (c : Char)
  | range (rs : List (Char × Char))
  deriving DecidableEq

/-- The ranges of a bracket expression, whose letters carry whether they are a dash
that was not escaped. A range must not run backwards. -/
def ranges : List (Char × Bool) → Option (List (Char × Char))
  | (a, _) :: (_, true) :: (b, _) :: cs => if a ≤ b then (ranges cs).map ((a, b) :: ·) else none
  | (a, _) :: cs => (ranges cs).map ((a, a) :: ·)
  | [] => some []

/-- Read a pattern; inside brackets the letters so far are kept. A closing bracket that
comes first is a letter. -/
def parseFrom : Option (List (Char × Bool)) → Text → Option (List Element)
  | none, [] => some []
  | none, '*' :: cs => (parseFrom none cs).map (.any :: ·)
  | none, '?' :: cs => (parseFrom none cs).map (.one :: ·)
  | none, '[' :: cs => parseFrom (some []) cs
  | none, '`' :: c :: cs => (parseFrom none cs).map (.letter c :: ·)
  | none, c :: cs => (parseFrom none cs).map (.letter c :: ·)
  | some _, [] => none
  | some inside, '`' :: c :: cs => parseFrom (some (inside ++ [(c, false)])) cs
  | some inside, c :: cs =>
    if c = ']' ∧ inside ≠ [] then do
      let rs ← ranges inside
      let es ← parseFrom none cs
      some (.range rs :: es)
    else parseFrom (some (inside ++ [(c, c == '-')])) cs

/-- The elements of a pattern, if it is valid; a single backtick is the empty pattern. -/
def parse (p : Text) : Option (List Element) := if p = ['`'] then some [] else parseFrom none p

variable [Culture]

/-- Whether a letter lies in one of the ranges in some case. -/
def inRanges (rs : List (Char × Char)) (c : Char) : Bool :=
  rs.any fun (a, b) => [c, Culture.lower c, Culture.upper c].any fun x => a ≤ x && x ≤ b

/-- Match a whole text against the elements of a pattern. -/
def matchElements : List Element → Text → Bool
  | [], t => t.isEmpty
  | .any :: es, t => t.tails.any (matchElements es)
  | .one :: es, t =>
    match t with
    | [] => false
    | _ :: cs => matchElements es cs
  | .letter x :: es, t =>
    match t with
    | [] => false
    | c :: cs => Culture.lower x == Culture.lower c && matchElements es cs
  | .range rs :: es, t =>
    match t with
    | [] => false
    | c :: cs => inRanges rs c && matchElements es cs

end Wildcard

/-- `$t -like $p`. -/
def like [Culture] (t p : Text) : Bool :=
  match Wildcard.parse p with
  | none => false
  | some es => Wildcard.matchElements es t

namespace Wildcard

/-- The letters with a meaning in wildcard patterns. -/
def isSpecial (c : Char) : Bool := c == '*' || c == '?' || c == '[' || c == '`'

theorem parseFrom_literal {p : Text} (hp : ∀ c ∈ p, isSpecial c = false) :
    parseFrom none p = some (p.map .letter) := by
  induction p with
  | nil => rfl
  | cons c p ih =>
    have hc := hp c List.mem_cons_self
    have htail := ih fun d hd => hp d (List.mem_cons_of_mem c hd)
    simp only [isSpecial, Bool.or_eq_false_iff, beq_eq_false_iff_ne, ne_eq] at hc
    obtain ⟨⟨⟨h1, h2⟩, h3⟩, h4⟩ := hc
    simp [parseFrom, h4, htail]

theorem parse_literal {p : Text} (hp : ∀ c ∈ p, isSpecial c = false) :
    parse p = some (p.map .letter) := by
  have hne : p ≠ ['`'] := by
    rintro rfl
    cases hp '`' List.mem_cons_self
  rw [parse, if_neg hne, parseFrom_literal hp]

theorem matchElements_literal [Culture] (p t : Text) :
    matchElements (p.map .letter) t = eqIgnoreCase t p := by
  induction p generalizing t with
  | nil => cases t <;> simp [matchElements, eqIgnoreCase, toLower]
  | cons x p ih =>
    cases t with
    | nil => simp [matchElements, eqIgnoreCase, toLower]
    | cons c t =>
      simp only [List.map_cons, matchElements, ih, eqIgnoreCase, toLower]
      rw [Bool.eq_iff_iff, Bool.and_eq_true, beq_iff_eq, beq_iff_eq, beq_iff_eq, List.cons.injEq]
      exact and_congr_left fun _ => eq_comm

end Wildcard

/-- A pattern without special letters matches the texts equal to it up to case. -/
theorem like_literal [Culture] {p : Text} (hp : ∀ c ∈ p, Wildcard.isSpecial c = false) (t : Text) :
    like t p = eqIgnoreCase t p := by
  rw [like, Wildcard.parse_literal hp]
  exact Wildcard.matchElements_literal p t

namespace Wildcard

theorem parseFrom_literal_star {p : Text} (hp : ∀ c ∈ p, isSpecial c = false) :
    parseFrom none (p ++ ['*']) = some (p.map .letter ++ [.any]) := by
  induction p with
  | nil => rfl
  | cons c p ih =>
    have hc := hp c List.mem_cons_self
    have htail := ih fun d hd => hp d (List.mem_cons_of_mem c hd)
    simp only [isSpecial, Bool.or_eq_false_iff, beq_eq_false_iff_ne, ne_eq] at hc
    obtain ⟨⟨⟨h1, h2⟩, h3⟩, h4⟩ := hc
    simp [parseFrom, h4, htail]

theorem matchElements_literal_star [Culture] (p t : Text) :
    matchElements (p.map .letter ++ [.any]) t = true ↔ toLower p <+: toLower t := by
  induction p generalizing t with
  | nil =>
    refine iff_of_true ?_ List.nil_prefix
    rw [List.map_nil, List.nil_append, matchElements, List.any_eq_true]
    exact ⟨[], (List.mem_tails _ _).mpr List.nil_suffix, rfl⟩
  | cons x p ih =>
    cases t with
    | nil => simp [matchElements, toLower]
    | cons c t =>
      simp only [List.map_cons, List.cons_append, matchElements, Bool.and_eq_true, beq_iff_eq, ih,
        toLower, List.cons_prefix_cons]

end Wildcard

/-- A text between two stars is searched for without case. -/
theorem like_between [Culture] {p : Text} (hp : ∀ c ∈ p, Wildcard.isSpecial c = false) (t : Text) :
    like t ('*' :: (p ++ ['*'])) = true ↔ toLower p <:+: toLower t := by
  have hparse : Wildcard.parse ('*' :: (p ++ ['*'])) =
      some (.any :: (p.map .letter ++ [.any])) := by
    rw [Wildcard.parse, if_neg (by simp), Wildcard.parseFrom, Wildcard.parseFrom_literal_star hp]
    rfl
  have htails : (toLower t).tails = t.tails.map toLower := by
    induction t with
    | nil => rfl
    | cons c t ih => simpa [toLower] using ih
  rw [like, hparse]
  simp only [Wildcard.matchElements, List.any_eq_true, Wildcard.matchElements_literal_star]
  constructor
  · rintro ⟨u, hu, hbegins⟩
    have hmem : toLower u ∈ (toLower t).tails := htails ▸ List.mem_map_of_mem hu
    exact hbegins.isInfix.trans ((List.mem_tails _ _).mp hmem).isInfix
  · intro hwithin
    obtain ⟨v, hbegins, hsuffix⟩ := List.infix_iff_prefix_suffix.mp hwithin
    have hmem := (List.mem_tails _ _).mpr hsuffix
    rw [htails] at hmem
    obtain ⟨u, hu, rfl⟩ := List.mem_map.mp hmem
    exact ⟨u, hu, hbegins⟩

namespace Wildcard

/-- A pattern without brackets does not see the case. -/
theorem matchElements_congr [Culture] {es : List Element} (hes : ∀ rs, .range rs ∉ es)
    {s t : Text} (h : toLower s = toLower t) : matchElements es s = matchElements es t := by
  have hnil : ∀ {t : Text}, toLower [] = toLower t → t = [] :=
    fun {t} ht => List.map_eq_nil_iff.mp ht.symm
  induction es generalizing s t with
  | nil =>
    cases s with
    | nil => rw [hnil h]
    | cons c s =>
      cases t with
      | nil => cases hnil h.symm
      | cons d t => rfl
  | cons e es ih =>
    have htail : ∀ {s t : Text}, toLower s = toLower t → matchElements es s = matchElements es t :=
      fun {s t} => ih fun rs hrs => hes rs (List.mem_cons_of_mem e hrs)
    cases e with
    | any =>
      rw [matchElements, matchElements]
      induction s generalizing t with
      | nil => rw [hnil h]
      | cons c s ihs =>
        cases t with
        | nil => cases hnil h.symm
        | cons d t =>
          have hrest : toLower s = toLower t := (List.cons.inj h).2
          rw [List.tails_cons, List.tails_cons, List.any_cons, List.any_cons, htail h, ihs hrest]
    | one | letter =>
      cases s with
      | nil => rw [hnil h]
      | cons c s =>
        cases t with
        | nil => cases hnil h.symm
        | cons d t =>
          obtain ⟨hc, hrest⟩ := List.cons.inj h
          simp only [matchElements, htail hrest, hc]
    | range rs => exact absurd List.mem_cons_self (hes rs)

end Wildcard

/-! ## Patterns with letters behind them -/

namespace Wildcard

/-- A letter behind a pattern leaves it valid or invalid. -/
theorem isSome_parseFrom_append {x : Char} (hx : isSpecial x = false) (hbracket : x ≠ ']')
    (inside : Option (List (Char × Bool))) (p : Text) :
    (parseFrom inside (p ++ [x])).isSome = (parseFrom inside p).isSome := by
  have hone : parseFrom none [x] = some [.letter x] := by
    rw [parseFrom_literal (p := [x])]
    · rfl
    · intro c hc
      rwa [List.mem_singleton.mp hc]
  have hinside : ∀ rs, parseFrom (some rs) [x] = none := by
    intro rs
    have hne : ¬(x = ']' ∧ rs ≠ []) := fun h => hbracket h.1
    simp [parseFrom, hne]
  fun_induction parseFrom inside p with
  | case1 => simp [hone]
  | case2 cs ih => simp [parseFrom, ih]
  | case3 cs ih => simp [parseFrom, ih]
  | case4 cs ih => simp [parseFrom, ih]
  | case5 c cs ih => simp [parseFrom, ih]
  | case6 c cs hany hone' hopen hescape ih =>
    cases cs with
    | nil =>
      -- a backtick at the end is a letter, in front of the letter it escapes it
      by_cases hc : c = '`'
      · subst hc
        simp [parseFrom]
      · simp [parseFrom, hc, hone]
    | cons d cs =>
      have hc : c ≠ '`' := fun hc => hescape d cs hc rfl
      simp only [List.cons_append] at ih
      simp [parseFrom, hc, ih]
  | case7 rs => simp [hinside]
  | case8 rs c cs ih => simp [parseFrom, ih]
  | case9 rs c cs hescape hclose ih =>
    obtain ⟨rfl, hrs⟩ := hclose
    cases hranges : ranges rs with
    | none => simp [parseFrom, hrs, hranges]
    | some r =>
      have hbind : ∀ o : Option (List Element),
          (o.bind fun es => some (.range r :: es)).isSome = o.isSome := by
        intro o
        cases o <;> rfl
      rw [List.cons_append, parseFrom, if_pos ⟨rfl, hrs⟩, hranges]
      · exact (hbind _).trans (ih.trans (hbind _).symm)
      · intro d ds h
        cases h
  | case10 rs c cs hescape hopen ih =>
    by_cases hc : c = '`'
    · cases cs with
      | nil =>
        subst hc
        simp [parseFrom]
      | cons d cs => exact absurd rfl (hescape d cs hc)
    · rw [List.cons_append, parseFrom, if_neg hopen, ih]
      exact fun _ _ h => absurd h hc

theorem isSome_parse_append {x : Char} (hx : isSpecial x = false) (hbracket : x ≠ ']') (p : Text) :
    (parse (p ++ [x])).isSome = (parse p).isSome := by
  have hne : p ++ [x] ≠ ['`'] := by
    intro h
    have hlast := congrArg List.getLast? h
    simp only [List.getLast?_concat, List.getLast?_singleton, Option.some.injEq] at hlast
    subst hlast
    cases hx
  rw [parse, if_neg hne, isSome_parseFrom_append hx hbracket, parse]
  split_ifs with hp
  · rw [hp]
    rfl
  · rfl

/-- The number of elements that take a letter. -/
def width (es : List Element) : Nat := es.countP fun e => e != .any

/-- A text has a letter for each of these elements. -/
theorem width_le_of_matchElements [Culture] {es : List Element} {t : Text}
    (h : matchElements es t = true) : width es ≤ t.length := by
  induction es generalizing t with
  | nil => exact Nat.zero_le _
  | cons e es ih =>
    have hcons : ∀ {e' : Element} {c : Char} {cs : Text}, matchElements es cs = true →
        width (e' :: es) ≤ (c :: cs).length := by
      intro e' c cs hcs
      have hle := ih hcs
      have hcount : width (e' :: es) ≤ width es + 1 := by
        rw [width, List.countP_cons, width]
        split_ifs <;> omega
      rw [List.length_cons]
      omega
    cases e with
    | any =>
      obtain ⟨s, hs, hmatch⟩ := List.any_eq_true.mp h
      have hlength := ((List.mem_tails s t).mp hs).length_le
      exact (ih hmatch).trans hlength
    | one =>
      cases t with
      | nil => cases h
      | cons c cs => exact hcons h
    | letter x =>
      cases t with
      | nil => cases h
      | cons c cs => exact hcons (Bool.and_eq_true_iff.mp h).2
    | range rs =>
      cases t with
      | nil => cases h
      | cons c cs => exact hcons (Bool.and_eq_true_iff.mp h).2

/-- A row of letters is read letter by letter. -/
theorem parseFrom_replicate {x : Char} (hx : isSpecial x = false) (n : Nat) :
    parseFrom none (List.replicate n x) = some (List.replicate n (.letter x)) := by
  rw [parseFrom_literal fun c hc => (List.eq_of_mem_replicate hc) ▸ hx, List.map_replicate]

theorem width_replicate (x : Char) (n : Nat) : width (List.replicate n (.letter x)) = n := by
  rw [width, List.countP_replicate, if_pos (by rfl)]

/-- A row of letters does not close a bracket. -/
theorem parseFrom_inside_replicate {x : Char} (hx : isSpecial x = false) (hbracket : x ≠ ']')
    (rs : List (Char × Bool)) (n : Nat) : parseFrom (some rs) (List.replicate n x) = none := by
  have hbacktick : x ≠ '`' := by
    rintro rfl
    cases hx
  induction n generalizing rs with
  | zero => simp [parseFrom]
  | succ n ih => simp [List.replicate_succ, parseFrom, hbacktick, hbracket, ih]

/-- One more element does not make a pattern narrower. -/
theorem le_width_of_map {k : Nat} {e : Element} {o : Option (List Element)} {es : List Element}
    (ho : ∀ {es}, o = some es → k ≤ width es) (h : o.map (e :: ·) = some es) : k ≤ width es := by
  obtain ⟨es', rfl, rfl⟩ := Option.map_eq_some_iff.mp h
  refine (ho rfl).trans ?_
  rw [width, width, List.countP_cons]
  exact Nat.le_add_right _ _

/-- Each letter behind a pattern takes a letter. -/
theorem le_width_of_parseFrom {x : Char} (hx : isSpecial x = false) (hbracket : x ≠ ']')
    {inside : Option (List (Char × Bool))} {p : Text} {k : Nat} {es : List Element}
    (h : parseFrom inside (p ++ List.replicate k x) = some es) : k ≤ width es := by
  fun_induction parseFrom inside p generalizing es with
  | case1 =>
    rw [List.nil_append, parseFrom_replicate hx] at h
    obtain rfl := Option.some.inj h
    exact (width_replicate x k).ge
  | case2 cs ih =>
    rw [List.cons_append, parseFrom] at h
    exact le_width_of_map ih h
  | case3 cs ih =>
    rw [List.cons_append, parseFrom] at h
    exact le_width_of_map ih h
  | case4 cs ih =>
    rw [List.cons_append, parseFrom] at h
    exact ih h
  | case5 c cs ih =>
    rw [List.cons_append, List.cons_append, parseFrom] at h
    exact le_width_of_map ih h
  | case6 c cs hany hone hopen hescape ih =>
    by_cases hc : c = '`'
    · subst hc
      cases cs with
      | nil =>
        cases k with
        | zero => exact Nat.zero_le _
        | succ n =>
          rw [List.replicate_succ, List.singleton_append, parseFrom, parseFrom_replicate hx,
            Option.map_some] at h
          obtain rfl := Option.some.inj h
          exact (width_replicate x (n + 1)).ge
      | cons d cs => exact absurd rfl (hescape d cs rfl)
    · rw [List.cons_append, parseFrom] at h
      · exact le_width_of_map ih h
      · exact hany
      · exact hone
      · exact hopen
      · exact fun _ _ h => absurd h hc
  | case7 rs =>
    rw [List.nil_append, parseFrom_inside_replicate hx hbracket] at h
    cases h
  | case8 rs c cs ih =>
    rw [List.cons_append, List.cons_append, parseFrom] at h
    exact ih h
  | case9 rs c cs hescape hclose ih =>
    obtain ⟨rfl, hrs⟩ := hclose
    rw [List.cons_append, parseFrom, if_pos ⟨rfl, hrs⟩] at h
    · cases hranges : ranges rs with
      | none =>
        rw [hranges] at h
        cases h
      | some r =>
        rw [hranges] at h
        exact le_width_of_map (e := .range r) ih (by rw [← h]; cases parseFrom none _ <;> rfl)
    · intro d ds h
      cases h
  | case10 rs c cs hescape hopen ih =>
    by_cases hc : c = '`'
    · subst hc
      cases cs with
      | nil =>
        cases k with
        | zero =>
          rw [List.replicate_zero, List.append_nil, parseFrom, if_neg hopen, parseFrom] at h
          · cases h
          · intro d ds _ h
            cases h
        | succ n =>
          rw [List.replicate_succ, List.singleton_append, parseFrom,
            parseFrom_inside_replicate hx hbracket] at h
          cases h
      | cons d cs => exact absurd rfl (hescape d cs rfl)
    · rw [List.cons_append, parseFrom, if_neg hopen] at h
      · exact ih h
      · exact fun _ _ h => absurd h hc

/-- A text is shorter than a pattern with many letters behind it that it matches. -/
theorem not_like_of_length_lt [Culture] {x : Char} (hx : isSpecial x = false) (hbracket : x ≠ ']')
    {p t : Text} {k : Nat} (hk : t.length < k) : like t (p ++ List.replicate k x) = false := by
  cases hes : parse (p ++ List.replicate k x) with
  | none => rw [like, hes]
  | some es =>
    rw [like, hes, ← Bool.not_eq_true]
    intro hmatch
    have hle : k ≤ width es := by
      rw [parse] at hes
      split_ifs at hes with hp
      · have hlength := congrArg List.length hp
        simp only [List.length_append, List.length_replicate, List.length_singleton] at hlength
        have hk' : k = 1 := by omega
        subst hk'
        cases p with
        | nil =>
          obtain rfl : x = '`' := by simpa using hp
          cases hx
        | cons c p =>
          rw [List.length_cons] at hlength
          omega
      · exact le_width_of_parseFrom hx hbracket hes
    have hwidth := width_le_of_matchElements hmatch
    omega

end Wildcard

end OpsScripts
