import OpsScripts.Core.RegexSyntax

/-!
# Replacing the matches of a pattern

The operator `-replace`: the matches are replaced from left to right, and the replacement is a
pattern of its own, in which a dollar sign can stand for the match or what is around it.
`Replaced` describes the outcome for a plain pattern and a replacement that stands for itself.
-/

namespace OpsScripts

namespace Regex

/-! ## Replacements -/

/-- A part of a replacement, for patterns without groups. -/
inductive Part where
  | letter (c : Char)
  | whole | front | rest | input
  deriving DecidableEq

/-- What a character behind a dollar sign stands for; 39 is the apostrophe. -/
def sign (c : Char) : Option Part :=
  if c = '$' then some (.letter '$')
  else if c = '&' ∨ c = '+' then some .whole
  else if c = '`' then some .front
  else if c = Char.ofNat 39 then some .rest
  else if c = '_' then some .input
  else none

/-- The value of a row of digits. -/
def decimal (digits : Text) : Nat := digits.foldl (fun n c => 10 * n + (c.toNat - 48)) 0

/-- The number of a group behind a dollar sign, and the text behind it if it is complete. -/
def groupNumber (t : Text) : Option (Nat × Option Text) :=
  let braced := t.head? = some '{'
  let inner := if braced then t.tail else t
  let digits := inner.takeWhile Char.isDigit
  let rest := inner.dropWhile Char.isDigit
  if digits = [] then none
  else some (decimal digits,
    if braced then (if rest.head? = some '}' then some rest.tail else none) else some rest)

/-- Read a replacement in at most `n` steps. The match is the only group; a number that is too
large is an error, and every other dollar sign stands for itself. -/
def partsFrom : Nat → Text → Option (List Part)
  | 0, _ => some []
  | _ + 1, [] => some []
  | n + 1, c :: cs =>
    if c ≠ '$' then (partsFrom n cs).map (.letter c :: ·)
    else
      match cs.head?.bind sign with
      | some part => (partsFrom n cs.tail).map (part :: ·)
      | none =>
        match groupNumber cs with
        | some (0, some rest) => (partsFrom n rest).map (.whole :: ·)
        | some (k, _) =>
          if 2147483647 < k then none else (partsFrom n cs).map (.letter '$' :: ·)
        | none => (partsFrom n cs).map (.letter '$' :: ·)

/-- Read a replacement. -/
def parts (t : Text) : Option (List Part) := partsFrom t.length t

/-- The text of a replacement, given those before, in and behind the match. -/
def expand (ps : List Part) (front u rest : Text) : Text :=
  ps.flatMap fun
    | .letter c => [c]
    | .whole => u
    | .front => front
    | .rest => rest
    | .input => front ++ u ++ rest

/-- A replacement that stands for itself. -/
def Literal (new : Text) : Prop := parts new = some (new.map .letter)

instance (new : Text) : Decidable (Literal new) :=
  inferInstanceAs (Decidable (parts new = some (new.map .letter)))

/-- Only the whole match is a group. -/
example : parts "$$ $1 $&".toList =
    some [.letter '$', .letter ' ', .letter '$', .letter '1', .letter ' ', .whole] := by decide

theorem expand_letters (new : Text) : expand (new.map .letter) = fun _ _ _ => new := by
  funext front u rest
  induction new with
  | nil => rfl
  | cons c new ih => exact congrArg (c :: ·) ih

/-! ## Substitution -/

/-- Replace the matches in at most `n` steps, `front` being the text before them. -/
def substituteFrom (r : Regex) (new : Text → Text → Text → Text) : Nat → Text → Text → Text
  | 0, _, s => s
  | n + 1, front, s =>
    match run r s [] fun s' _ => some s' with
    | none =>
      match s with
      | [] => []
      | x :: t => x :: substituteFrom r new n (front ++ [x]) t
    | some s' =>
      let u := s.take (s.length - s'.length)
      if u ≠ [] then new front u s' ++ substituteFrom r new n (front ++ u) s'
      else
        match s with
        | [] => new front [] []
        | x :: t => new front [] (x :: t) ++ x :: substituteFrom r new n (front ++ [x]) t

/-- Replace the matches. -/
def substitute (r : Regex) (new : Text → Text → Text → Text) (t : Text) : Text :=
  substituteFrom r new (t.length + 1) [] t

/-- A match at the front is replaced. -/
theorem substituteFrom_append {r : Regex} {u s : Text} (hu : u ≠ [])
    (h : (run r (u ++ s) [] fun s' _ => some s') = some s) (new : Text → Text → Text → Text)
    (n : Nat) (front : Text) : substituteFrom r new (n + 1) front (u ++ s) =
      new front u s ++ substituteFrom r new n (front ++ u) s := by
  have htake : (u ++ s).take ((u ++ s).length - s.length) = u := by
    rw [List.length_append, Nat.add_sub_cancel, List.take_left]
  rw [substituteFrom.eq_def]
  simp only [h, htake]
  rw [if_pos hu]

/-- Without a match a letter is passed. -/
theorem substituteFrom_cons {r : Regex} {c : Char} {s : Text}
    (h : (run r (c :: s) [] fun s' _ => some s') = none) (new : Text → Text → Text → Text)
    (n : Nat) (front : Text) : substituteFrom r new (n + 1) front (c :: s) =
      c :: substituteFrom r new n (front ++ [c]) s := by
  rw [substituteFrom, h]

theorem substituteFrom_nil {r : Regex} (h : (run r [] [] fun s' _ => some s') = none)
    (new : Text → Text → Text → Text) (n : Nat) (front : Text) :
    substituteFrom r new n front [] = [] := by
  cases n with
  | zero => rfl
  | succ n => rw [substituteFrom, h]

/-! ## Plain patterns -/

variable [Culture] {β : Type} {p : Text}

/-- A pattern of letters, without case. -/
def ignoringCase (p : Text) : Regex := literal (letterEq true) p

/-- The case of the pattern does not matter. -/
theorem ignoringCase_congr {p p' : Text} (h : toLower p = toLower p') :
    ignoringCase p = ignoringCase p' := by
  induction p generalizing p' with
  | nil => rw [List.map_eq_nil_iff.mp h.symm]
  | cons c p ih =>
    cases p' with
    | nil => cases h
    | cons c' p' =>
      obtain ⟨hc, htail⟩ := List.cons.inj h
      have heq : letterEq true c = letterEq true c' := by
        funext x
        simp only [letterEq, ite_true, hc]
      rw [ignoringCase, literal, heq]
      exact congrArg (seq (set (letterEq true c'))) (ih htail)

/-- A match at the front. -/
theorem run_ignoringCase_append {u : Text} (h : toLower u = toLower p) (s : Text) (c : Captures)
    (k : Cont β) : run (ignoringCase p) (u ++ s) c k = k s c := by
  induction p generalizing u with
  | nil =>
    rw [List.map_eq_nil_iff.mp h]
    rfl
  | cons x p ih =>
    cases u with
    | nil => cases h
    | cons y u =>
      obtain ⟨hy, htail⟩ := List.cons.inj h
      have hxy : letterEq true x y = true := by
        simp only [letterEq, ite_true, hy, beq_self_eq_true]
      rw [ignoringCase, literal, run, List.cons_append, run, if_pos hxy]
      exact ih htail

/-- No match at the front. -/
theorem run_ignoringCase_eq_none {s : Text} (h : ¬toLower p <+: toLower s) (c : Captures)
    (k : Cont β) : run (ignoringCase p) s c k = none := by
  induction p generalizing s with
  | nil => exact absurd List.nil_prefix h
  | cons x p ih =>
    cases s with
    | nil => rfl
    | cons y s =>
      rw [ignoringCase, literal, run, run]
      split_ifs with hxy
      · refine ih fun hbegins => h ?_
        simp only [letterEq, ite_true, beq_iff_eq] at hxy
        rw [toLower, toLower, List.map_cons, List.map_cons, List.cons_prefix_cons]
        exact ⟨hxy, hbegins⟩
      · rfl

omit [Culture] in
/-- A text that begins with another one up to case. -/
theorem exists_of_toLower_begins [Culture] {p s : Text} (h : toLower p <+: toLower s) :
    ∃ u v, s = u ++ v ∧ toLower u = toLower p := by
  obtain ⟨w, hw⟩ := h
  obtain ⟨u, v, rfl, hu, -⟩ := List.map_eq_append_iff.mp hw.symm
  exact ⟨u, v, rfl, hu⟩

/-- A text without the pattern stays, whatever the replacement. -/
theorem substitute_eq_self (new : Text → Text → Text → Text) {t : Text}
    (h : ¬toLower p <:+: toLower t) : substitute (ignoringCase p) new t = t := by
  have hfrom : ∀ n front s, ¬toLower p <:+: toLower s →
      substituteFrom (ignoringCase p) new n front s = s := by
    intro n
    induction n with
    | zero => exact fun _ _ _ => rfl
    | succ n ih =>
      intro front s hs
      have hnone : (run (ignoringCase p) s [] fun s' _ => some s') = none :=
        run_ignoringCase_eq_none (fun hbegins => hs hbegins.isInfix) _ _
      cases s with
      | nil => exact substituteFrom_nil hnone new _ front
      | cons c s =>
        have htail : ¬toLower p <:+: toLower s := fun hwithin =>
          hs (hwithin.trans (List.suffix_cons (Culture.lower c) (toLower s)).isInfix)
        rw [substituteFrom_cons hnone, ih _ s htail]
  exact hfrom _ _ t h

/-- The outcome of a replacement: either an occurrence is at the front, or one letter is
passed. -/
inductive Replaced (p new : Text) : Text → Text → Prop
  | nil : Replaced p new [] []
  | found {u s out : Text} (h : toLower u = toLower p) (hrest : Replaced p new s out) :
    Replaced p new (u ++ s) (new ++ out)
  | passed {c : Char} {s out : Text} (h : ¬toLower p <+: toLower (c :: s))
    (hrest : Replaced p new s out) : Replaced p new (c :: s) (c :: out)

namespace Replaced

variable {new : Text}

/-- Every text has an outcome. -/
theorem exists_out (hp : p ≠ []) (new t : Text) : ∃ out, Replaced p new t out := by
  induction hn : t.length using Nat.strong_induction_on generalizing t with
  | _ n ih =>
    by_cases hbegins : toLower p <+: toLower t
    · obtain ⟨u, s, rfl, hu⟩ := exists_of_toLower_begins hbegins
      have hlength : u.length = p.length := by
        rw [← length_toLower, hu, length_toLower]
      have hpos := List.length_pos_of_ne_nil hp
      rw [List.length_append] at hn
      obtain ⟨out, hout⟩ := ih s.length (by omega) s rfl
      exact ⟨new ++ out, .found hu hout⟩
    · cases t with
      | nil => exact ⟨[], .nil⟩
      | cons c s =>
        rw [List.length_cons] at hn
        obtain ⟨out, hout⟩ := ih s.length (by omega) s rfl
        exact ⟨c :: out, .passed hbegins hout⟩

/-- The outcome is computed. -/
theorem substitute_eq (hp : p ≠ []) {t out : Text} (h : Replaced p new t out) :
    substitute (ignoringCase p) (fun _ _ _ => new) t = out := by
  have hfrom : ∀ n front, t.length < n →
      substituteFrom (ignoringCase p) (fun _ _ _ => new) n front t = out := by
    induction h with
    | nil =>
      intro n front _
      have hnil : ¬toLower p <+: toLower [] := fun h =>
        hp (List.map_eq_nil_iff.mp (List.prefix_nil.mp h))
      exact substituteFrom_nil (run_ignoringCase_eq_none hnil _ _) _ n front
    | @found u s out hu _ ih =>
      intro n front hn
      obtain ⟨n, rfl⟩ := Nat.exists_eq_succ_of_ne_zero (Nat.ne_zero_of_lt hn)
      have hne : u ≠ [] := by
        rintro rfl
        exact hp (List.map_eq_nil_iff.mp hu.symm)
      have hpos := List.length_pos_of_ne_nil hne
      rw [List.length_append] at hn
      rw [substituteFrom_append hne (run_ignoringCase_append hu _ _ _), ih n _ (by omega)]
    | @passed c s out hbegins _ ih =>
      intro n front hn
      obtain ⟨n, rfl⟩ := Nat.exists_eq_succ_of_ne_zero (Nat.ne_zero_of_lt hn)
      rw [List.length_cons] at hn
      rw [substituteFrom_cons (run_ignoringCase_eq_none hbegins _ _), ih n _ (by omega)]
  exact hfrom _ _ (Nat.lt_succ_self _)

/-- A text without the pattern. -/
theorem self (new : Text) {t : Text} (h : ¬toLower p <:+: toLower t) : Replaced p new t t := by
  induction t with
  | nil => exact .nil
  | cons c t ih =>
    refine .passed (fun hbegins => h hbegins.isInfix) (ih fun hwithin => h ?_)
    exact hwithin.trans (List.suffix_cons (Culture.lower c) (toLower t)).isInfix

/-- A letter that is none of the pattern parts the text. -/
theorem append_cons {s t out out' : Text} {c : Char} (hc : Culture.lower c ∉ toLower p)
    (hp : p ≠ []) (h : Replaced p new s out) (h' : Replaced p new t out') :
    Replaced p new (s ++ c :: t) (out ++ c :: out') := by
  induction h with
  | nil =>
    refine .passed (fun hbegins => ?_) h'
    obtain ⟨x, q, hq⟩ := List.exists_cons_of_ne_nil (mt List.map_eq_nil_iff.mp hp)
    have hmem : x ∈ toLower p := by
      rw [toLower, hq]
      exact List.mem_cons_self
    rw [toLower, hq, toLower, List.map_cons, List.cons_prefix_cons] at hbegins
    exact hc (hbegins.1 ▸ hmem)
  | found hu _ ih =>
    rw [List.append_assoc, List.append_assoc]
    exact .found hu ih
  | @passed d s out hbegins _ ih =>
    refine .passed (fun hlonger => ?_) ih
    have hend : toLower (d :: s) ++ [Culture.lower c] <+: toLower (d :: (s ++ c :: t)) := by
      refine ⟨toLower t, ?_⟩
      simp only [toLower, List.map_cons, List.map_append, List.cons_append, List.append_assoc,
        List.nil_append]
    rcases List.prefix_or_prefix_of_prefix hlonger hend with hshort | hlong
    · rcases List.prefix_concat_iff.mp hshort with heq | hshort
      · exact hc (heq ▸ List.mem_append_right _ (List.mem_singleton_self _))
      · exact hbegins hshort
    · exact hc (hlong.subset (List.mem_append_right _ (List.mem_singleton_self _)))

/-- Letters come from the text or from the replacement. -/
theorem notMem {t out : Text} {c : Char} (h : Replaced p new t out) (hnew : c ∉ new)
    (ht : c ∉ t) : c ∉ out := by
  induction h with
  | nil => exact ht
  | found _ _ ih =>
    rw [List.mem_append, not_or] at ht ⊢
    exact ⟨hnew, ih ht.2⟩
  | passed _ _ ih =>
    rw [List.mem_cons, not_or] at ht ⊢
    exact ⟨ht.1, ih ht.2⟩

/-- A letter that is rarer in the replacement becomes rarer, unless there is no occurrence. -/
theorem count_le {c : Char} (hlt : (toLower new).count c < (toLower p).count c) {t out : Text}
    (h : Replaced p new t out) : (toLower out).count c ≤ (toLower t).count c ∧
      (toLower p <:+: toLower t → (toLower out).count c < (toLower t).count c) := by
  induction h with
  | nil =>
    refine ⟨le_rfl, fun hwithin => ?_⟩
    rw [List.infix_nil.mp hwithin] at hlt
    exact absurd hlt (Nat.not_lt_zero _)
  | found hu _ ih =>
    rw [toLower_append, toLower_append, List.count_append, List.count_append, hu]
    exact ⟨by omega, fun _ => by omega⟩
  | @passed d s out hbegins _ ih =>
    have hcons : ∀ t : Text, toLower (d :: t) = Culture.lower d :: toLower t := fun _ => rfl
    rw [hcons] at hbegins
    rw [hcons, hcons, List.count_cons, List.count_cons, List.infix_cons_iff]
    exact ⟨by omega, fun hwithin => by have := ih.2 (hwithin.resolve_left hbegins); omega⟩

end Replaced

end Regex

end OpsScripts
