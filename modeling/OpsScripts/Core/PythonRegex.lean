import Mathlib.Algebra.BigOperators.Group.List.Basic
import Mathlib.Algebra.GroupWithZero.Nat
import OpsScripts.Core.RegexLines

/-!
# The matches that Python lists

`re.findall` lists the text of each match, or of its group when the pattern has one
group, or a tuple when it has several. Behind a backslash a character that is no letter
stands for itself, and most letters are an error. A `PyRe` is any implementation that
agrees with the matcher on the modelled patterns; on these the list of a text of lines is
made of the lists of its lines.
-/

namespace OpsScripts

namespace Regex

/-! ## Patterns on a line -/

/-- The finished parts of an open group stay on a line. -/
def Level.OnLine (l : Level) : Prop := (∀ a ∈ l.alts, a.OnLine) ∧ ∀ r ∈ l.items, r.OnLine

theorem Level.onLine_start : Level.start.OnLine := by
  simp [Level.OnLine, Level.start]

theorem onLine_foldr_seq {rs : List Regex} (h : ∀ r ∈ rs, r.OnLine) :
    (rs.foldr seq eps).OnLine := by
  induction rs with
  | nil => trivial
  | cons r rs ih =>
    exact ⟨h r List.mem_cons_self, ih fun s hs => h s (List.mem_cons_of_mem r hs)⟩

theorem Level.OnLine.close {l : Level} (h : l.OnLine) : l.close.OnLine := by
  have hbody : l.body.OnLine := onLine_foldr_seq fun r hr => h.2 r (List.mem_reverse.mp hr)
  unfold Level.close
  split
  · exact hbody
  · next a ha => exact ⟨h.1 a ha, hbody⟩

theorem Level.OnLine.push {l : Level} (h : l.OnLine) {r : Regex} (hr : r.OnLine) :
    (l.push r).OnLine :=
  ⟨h.1, fun s hs => (List.mem_cons.mp hs).elim (fun he => he ▸ hr) (h.2 s)⟩

theorem Level.OnLine.next {l : Level} (h : l.OnLine) : l.next.OnLine := by
  constructor
  · rintro a ⟨⟩
    exact h.close
  · intro r hr
    cases hr

theorem Quantifier.onLine_apply (q : Quantifier) {r : Regex} (hr : r.OnLine) :
    (q.apply r).OnLine := by
  cases q with
  | star => exact hr
  | plus => exact ⟨hr, hr⟩
  | option => exact ⟨hr, trivial⟩

theorem Level.OnLine.quantify {l l' : Level} (h : l.OnLine) {q : Quantifier}
    (hl : l.quantify q.apply = some l') : l'.OnLine := by
  unfold Level.quantify at hl
  split at hl
  · next r items _ hitems =>
    obtain rfl := Option.some.inj hl
    have hmem : ∀ s ∈ r :: items, s.OnLine := fun s hs => h.2 s (hitems ▸ hs)
    refine ⟨h.1, fun s hs => ?_⟩
    rcases List.mem_cons.mp hs with rfl | hs
    · exact q.onLine_apply (hmem r List.mem_cons_self)
    · exact hmem s (List.mem_cons_of_mem r hs)
  · cases hl

theorem parseFrom_onLine {escape : Char → Escape}
    (hescape : ∀ c x, c ≠ '\n' → escape c = .letter x → x ≠ '\n') {p : Text} (hp : '\n' ∉ p)
    {escaped : Bool} {outer : List Level} {l : Level} {n : Nat} (houter : ∀ o ∈ outer, o.OnLine)
    (hl : l.OnLine) {r : Regex}
    (h : parseFrom escape (fun x y => x == y) p escaped outer l n = .pattern r) : r.OnLine := by
  have hletter : ∀ x : Char, x ≠ '\n' → (set fun y => x == y).OnLine := fun _ hx =>
    beq_eq_false_iff_ne.mpr hx
  induction p generalizing escaped outer l n with
  | nil =>
    cases escaped with
    | true => cases h
    | false =>
      cases outer with
      | nil =>
        obtain rfl := Parsed.pattern.inj h
        exact hl.close
      | cons o outer => cases h
  | cons c p ih =>
    rw [List.mem_cons, not_or] at hp
    cases escaped with
    | true =>
      cases hc : escape c with
      | unmodelled =>
        simp only [parseFrom, hc] at h
        cases h
      | invalid =>
        simp only [parseFrom, hc] at h
        cases h
      | letter x =>
        simp only [parseFrom, hc] at h
        exact ih hp.2 houter (hl.push (hletter x (hescape c x (Ne.symm hp.1) hc))) h
    | false =>
      cases htoken : token c with
      | letter =>
        simp only [parseFrom, htoken] at h
        exact ih hp.2 houter (hl.push (hletter c (Ne.symm hp.1))) h
      | escape =>
        simp only [parseFrom, htoken] at h
        exact ih hp.2 houter hl h
      | dot =>
        simp only [parseFrom, htoken] at h
        have hset : (set fun x => x != '\n').OnLine := rfl
        exact ih hp.2 houter (hl.push hset) h
      | opening =>
        simp only [parseFrom, htoken] at h
        split_ifs at h
        exact ih hp.2 (fun o ho => (List.mem_cons.mp ho).elim (fun he => he ▸ hl) (houter o))
          Level.onLine_start h
      | closing =>
        simp only [parseFrom, htoken] at h
        cases outer with
        | nil => cases h
        | cons o outer =>
          have hgroup : (group n l.close).OnLine := hl.close
          exact ih hp.2 (fun o' ho' => houter o' (List.mem_cons_of_mem o ho'))
            ((houter o List.mem_cons_self).push hgroup) h
      | bar =>
        simp only [parseFrom, htoken] at h
        exact ih hp.2 houter hl.next h
      | other =>
        simp only [parseFrom, htoken] at h
        cases h
      | quantifier q =>
        simp only [parseFrom, htoken] at h
        cases hq : l.quantify q.apply with
        | none =>
          rw [hq] at h
          cases h
        | some l' =>
          rw [hq] at h
          dsimp only at h
          split_ifs at h
          exact ih hp.2 houter (hl.quantify hq) h

/-! ## Escapes -/

/-- The letters that are a class, an anchor or the beginning of a number behind a
backslash; the line break, which leads off the line, is among them. -/
def openLetters : Text := "AbBdDsSwWZznxuUN0123456789".toList

/-- The letters that are a control character behind a backslash. -/
def controlLetters : List (Char × Char) :=
  [('a', '\x07'), ('f', '\x0c'), ('r', '\r'), ('t', '\t'), ('v', '\x0b')]

/-- What a backslash means in Python: in front of any other Latin letter it is an error, and
every other character stands for itself. -/
def pyEscape (c : Char) : Escape :=
  if c ∈ openLetters then .unmodelled
  else (controlLetters.lookup c).elim (if c.isAlpha then .invalid else .letter c) .letter

/-- Read a pattern as Python does. -/
def parsePython (p : Text) : Parsed := parseWith pyEscape (fun x y => x == y) p

theorem ne_newline_of_pyEscape {c x : Char} (hc : c ≠ '\n') (h : pyEscape c = .letter x) :
    x ≠ '\n' := by
  by_cases hopen : c ∈ openLetters
  · rw [pyEscape, if_pos hopen] at h
    cases h
  · rw [pyEscape, if_neg hopen] at h
    cases hlookup : controlLetters.lookup c with
    | some y =>
      rw [hlookup] at h
      obtain rfl := Escape.letter.inj h
      obtain ⟨ps, qs, hmem, -⟩ := List.lookup_eq_some_iff.mp hlookup
      have hcontrol : ∀ p ∈ controlLetters, p.2 ≠ '\n' := by decide
      exact hcontrol (c, y) (hmem ▸ List.mem_append_right ps List.mem_cons_self)
    | none =>
      rw [hlookup, Option.elim_none] at h
      split_ifs at h
      exact Escape.letter.inj h ▸ hc

/-- A pattern without a line break stays on a line. -/
theorem parsePython_onLine {p : Text} (hp : '\n' ∉ p) {r : Regex}
    (h : parsePython p = .pattern r) : r.OnLine :=
  parseFrom_onLine (fun _ _ => ne_newline_of_pyEscape) hp
    (fun _ ho => absurd ho List.not_mem_nil) Level.onLine_start h

/-- A path of Windows is no pattern. -/
example : parsePython "C:\\ProgramData".toList = .invalid := rfl

theorem parsePython_withDots {p : Text} (hp : WithDots p) :
    parsePython p = .pattern (literal (dotEq fun x y => x == y) p) :=
  parseWith_withDots _ _ hp

/-! ## Modelled patterns -/

/-- An expression that matches the empty text. -/
def nullable : Regex → Bool
  | eps => true
  | set _ => false
  | seq a b => nullable a && nullable b
  | alt a b => nullable a || nullable b
  | star _ => true
  | group _ a => nullable a

/-- Nothing is repeated that can be empty, and an empty alternative comes last: engines
differ in the groups of the one and in the search behind the other. -/
def Proper : Regex → Prop
  | eps => True
  | set _ => True
  | seq a b => Proper a ∧ Proper b
  | alt a b => nullable a = false ∧ Proper a ∧ Proper b
  | star a => nullable a = false ∧ Proper a
  | group _ a => Proper a

theorem proper_literal (eq : Char → Char → Bool) (p : Text) : (literal eq p).Proper := by
  induction p with
  | nil => trivial
  | cons x p ih => exact ⟨trivial, ih⟩

/-- A quantifier followed by a plus sign, which only newer versions accept. -/
def possessive : Text → Bool
  | [] => false
  | x :: t => (x == '*' || x == '+' || x == '?') && t.head? == some '+' || possessive t

/-- The number of groups: of the opening parentheses that no backslash stands in front of. -/
def groupCount : Text → Nat
  | [] => 0
  | [c] => if c = '(' then 1 else 0
  | c :: d :: t =>
    if c = '\\' then groupCount t else (if c = '(' then 1 else 0) + groupCount (d :: t)

/-- A text of letters and dots has no group. -/
theorem groupCount_withDots {p : Text} (h : WithDots p) : groupCount p = 0 := by
  have hplain : ∀ c ∈ p, c ≠ '(' ∧ c ≠ '\\' := by
    intro c hc
    constructor <;>
    · rintro rfl
      rcases h _ hc with hc | hc <;> cases hc
  clear h
  induction p with
  | nil => rfl
  | cons c p ih =>
    obtain ⟨hopen, hslash⟩ := hplain c List.mem_cons_self
    have hrest := ih fun d hd => hplain d (List.mem_cons_of_mem c hd)
    cases p with
    | nil => rw [groupCount, if_neg hopen]
    | cons d p => rw [groupCount, if_neg hslash, if_neg hopen, hrest]

/-- What is listed of the matches of a pattern; a tuple is no text. -/
def listed (p : Text) (r : Regex) (t : Text) : List (Option Text) :=
  match groupCount p with
  | 0 => (findall (group 0 r) t).map fun c => some (c.text 0)
  | 1 => (findall r t).map fun c => some (c.text 1)
  | _ => (findall r t).map fun _ => none

end Regex

/-- An implementation of `re.findall`; a pattern that is not valid gives nothing. -/
structure PyRe where
  findall : Text → Text → Option (List (Option Text))
  findall_invalid : ∀ p t, Regex.possessive p = false →
    Regex.parsePython p = .invalid → findall p t = none
  findall_pattern : ∀ p t r, r.Proper →
    Regex.parsePython p = .pattern r → findall p t = some (Regex.listed p r t)

/-- The implementation that knows the modelled patterns only. -/
def PyRe.core : PyRe where
  findall p t :=
    match Regex.parsePython p with
    | .pattern r => some (Regex.listed p r t)
    | _ => none
  findall_invalid _ _ _ h := by rw [h]
  findall_pattern _ _ _ _ h := by rw [h]

/-- A pattern about which the model decides. -/
inductive Modelled (p : Text) : Prop where
  | invalid (possessive : Regex.possessive p = false)
    (parse : Regex.parsePython p = .invalid)
  | pattern (r : Regex) (proper : r.Proper) (parse : Regex.parsePython p = .pattern r)

/-- A text of letters and dots is modelled. -/
theorem modelled_of_withDots {p : Text} (h : Regex.WithDots p) : Modelled p :=
  .pattern _ (Regex.proper_literal _ p) (Regex.parsePython_withDots h)

/-! ## Texts of letters and dots -/

namespace Regex

/-- A prefix of the second text is related to the first one letter by letter. -/
def startsLike (eq : Char → Char → Bool) : Text → Text → Bool
  | [], _ => true
  | _ :: _, [] => false
  | x :: p, y :: s => eq x y && startsLike eq p s

theorem run_literal_eq {β : Type} (eq : Char → Char → Bool) (p s : Text) (c : Captures)
    (k : Cont β) : run (literal eq p) s c k =
      if startsLike eq p s then k (s.drop p.length) c else none := by
  induction p generalizing s with
  | nil => rfl
  | cons x p ih =>
    cases s with
    | nil => rfl
    | cons y s =>
      cases hxy : eq x y
      · simp only [literal, run, hxy, startsLike, Bool.false_and, Bool.false_eq_true, if_false]
      · simp only [literal, run, hxy, startsLike, Bool.true_and, if_true, ih, List.length_cons,
          List.drop_succ_cons]

theorem startsLike_self {p : Text} (h : '\n' ∉ p) :
    startsLike (dotEq fun x y => x == y) p p = true := by
  induction p with
  | nil => rfl
  | cons x p ih =>
    rw [List.mem_cons, not_or] at h
    have hx : dotEq (fun x y => x == y) x x = true := by
      rw [dotEq]
      split_ifs
      · exact bne_iff_ne.mpr (Ne.symm h.1)
      · exact beq_self_eq_true x
    rw [startsLike, hx, ih h.2, Bool.true_and]

/-- A letter of the first text stands at the same place of the second one. -/
theorem getElem?_of_startsLike {x : Char} (hdot : x ≠ '.') {s t u : Text}
    (h : startsLike (dotEq fun x y => x == y) (s ++ x :: t) u = true) : u[s.length]? = some x := by
  induction s generalizing u with
  | nil =>
    cases u with
    | nil => cases h
    | cons y u =>
      rw [List.nil_append, startsLike, Bool.and_eq_true, dotEq, if_neg hdot, beq_iff_eq] at h
      rw [h.1]
      rfl
  | cons z s ih =>
    cases u with
    | nil => cases h
    | cons y u =>
      rw [List.cons_append, startsLike, Bool.and_eq_true] at h
      exact ih h.2

/-- Behind a word without the letter `x`, a text with that letter is found once, at the end. -/
theorem findall_append_self {x : Char} (hdot : x ≠ '.') {w p : Text} (hw : x ∉ w) (hp : x ∈ p)
    (hbreak : '\n' ∉ p) :
    findall (group 0 (literal (dotEq fun x y => x == y) p)) (w ++ p) = [[(0, p)]] := by
  obtain ⟨s, t, hst, hs⟩ := List.eq_append_cons_of_mem hp
  have hpos : 0 < p.length := List.length_pos_of_mem hp
  induction w with
  | nil =>
    have hrun : run (group 0 (literal (dotEq fun x y => x == y) p)) p []
        (fun s' c => some (s', c)) = some (([], [(0, p)]) : Text × Captures) := by
      rw [run, run_literal_eq, startsLike_self hbreak, if_pos rfl, List.drop_length,
        List.length_nil, Nat.sub_zero, List.take_length]
    have hnil : findall (group 0 (literal (dotEq fun x y => x == y) p)) [] = [] := by
      have hnone : run (group 0 (literal (dotEq fun x y => x == y) p)) [] []
          (fun s' c => some ((s', c) : Text × Captures)) = none := by
        rw [run, run_literal_eq]
        cases p with
        | nil => cases hp
        | cons y p => rfl
      simp only [findall, findallFrom, hnone]
    rw [List.nil_append, findall_of_some hrun hpos, hnil]
  | cons y w ih =>
    have hw' : x ∉ w := fun h => hw (List.mem_cons_of_mem y h)
    rw [List.cons_append, findall_cons_of_none, ih hw']
    rw [run, run_literal_eq, if_neg]
    intro hlike
    rw [hst] at hlike
    have hx := getElem?_of_startsLike hdot hlike
    -- the letter would stand in front of its first place
    have hfront : (y :: (w ++ (s ++ x :: t)))[s.length]? = (y :: (w ++ s))[s.length]? := by
      rw [← List.append_assoc, ← List.cons_append, List.getElem?_append_left]
      simp only [List.length_cons, List.length_append]
      omega
    rw [hfront] at hx
    rcases List.mem_cons.mp (List.mem_of_getElem? hx) with rfl | hmem
    · exact hw List.mem_cons_self
    · rcases List.mem_append.mp hmem with hmem | hmem
      · exact hw' hmem
      · exact hs hmem

end Regex

/-! ## Counting a pattern by its own text -/

namespace PyRe

variable (E : PyRe)

/-- `re.findall(element, text).count(element)`. -/
def count (element text : Text) : Option Nat :=
  (E.findall element text).map (List.count (some element))

variable {E} {element : Text}

/-- What is listed of a text of lines. -/
theorem count_listed_unlines {r : Regex} (hne : element ≠ []) (hr : r.OnLine) (ls : List Text) :
    (Regex.listed element r (unlines ls)).count (some element) =
      (ls.map fun l => (Regex.listed element r l).count (some element)).sum := by
  have hsum : ∀ {s : Regex} (f : Regex.Captures → Option Text), s.OnLine →
      ((Regex.findall s []).map f).count (some element) = 0 →
      ((Regex.findall s (unlines ls)).map f).count (some element) =
        (ls.map fun l => ((Regex.findall s l).map f).count (some element)).sum := by
    intro s f hs hnil
    rw [Regex.findall_unlines hs, List.map_append, List.count_append, hnil, Nat.add_zero]
    induction ls with
    | nil => rfl
    | cons l ls ih => rw [List.flatMap_cons, List.map_append, List.count_append, ih, List.map_cons,
        List.sum_cons]
  have hempty : ∀ (s : Regex) (i : Nat), ((Regex.findall s []).map fun c =>
      some (c.text i)).count (some element) = 0 := by
    intro s i
    rw [List.count_eq_zero]
    intro hmem
    obtain ⟨c, hc, hi⟩ := List.mem_map.mp hmem
    rw [List.eq_nil_of_infix_nil (Regex.infix_of_mem_findall hc i)] at hi
    exact hne (Option.some.inj hi).symm
  unfold Regex.listed
  split
  · exact hsum _ hr (hempty _ 0)
  · exact hsum _ hr (hempty _ 1)
  · refine hsum _ hr ?_
    rw [List.count_eq_zero]
    intro hmem
    obtain ⟨c, -, hi⟩ := List.mem_map.mp hmem
    cases hi

/-- On the modelled patterns the lines are counted one by one. -/
theorem count_unlines {r : Regex} (hne : element ≠ []) (hbreak : '\n' ∉ element)
    (hproper : r.Proper) (hparse : Regex.parsePython element = .pattern r) (ls : List Text) :
    E.count element (unlines ls) =
      some (ls.map fun l => (Regex.listed element r l).count (some element)).sum := by
  rw [count, E.findall_pattern element _ r hproper hparse, Option.map_some,
    count_listed_unlines hne (Regex.parsePython_onLine hbreak hparse)]

/-- The order of the lines does not matter to a modelled pattern. -/
theorem count_perm (hmodelled : Modelled element) (hne : element ≠ []) (hbreak : '\n' ∉ element)
    {ls ls' : List Text} (h : ls.Perm ls') :
    E.count element (unlines ls) = E.count element (unlines ls') := by
  cases hmodelled with
  | invalid possessive parse =>
    rw [count, count, E.findall_invalid _ _ possessive parse,
      E.findall_invalid _ _ possessive parse]
  | pattern r proper parse =>
    rw [count_unlines hne hbreak proper parse, count_unlines hne hbreak proper parse,
      (h.map _).sum_eq]

end PyRe

end OpsScripts
