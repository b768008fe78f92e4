import Mathlib.Data.List.Forall2
import OpsScripts.Core.Regex

/-!
# Patterns given as text

The part of the pattern language that common texts run into: letters, the
dot, groups, alternatives and the quantifiers. What a backslash means differs
between languages, so the reader takes it as a parameter. Patterns with a
construct beyond that (classes, anchors, counted or lazy quantifiers, group
options) are left open: an `Engine` is any implementation that agrees with
the matcher on the part modelled here and does what it likes elsewhere.
-/

namespace OpsScripts

namespace Regex

/-- The quantifiers of one character. -/
inductive Quantifier where
  | star | plus | option
  deriving DecidableEq

/-- The expression a quantifier makes of an item. -/
def Quantifier.apply : Quantifier → Regex → Regex
  | .star, r => Regex.star r
  | .plus, r => seq r (Regex.star r)
  | .option, r => alt r eps

/-- What a character means at the top level of a pattern. -/
inductive Token where
  | letter | dot | opening | closing | bar | escape | other
  | quantifier (q : Quantifier)
  deriving DecidableEq

/-- Classification of a pattern character. -/
def token (c : Char) : Token :=
  if c = '.' then .dot
  else if c = '(' then .opening
  else if c = ')' then .closing
  else if c = '|' then .bar
  else if c = '*' then .quantifier .star
  else if c = '+' then .quantifier .plus
  else if c = '?' then .quantifier .option
  else if c = '\\' then .escape
  else if c = '[' ∨ c = '{' ∨ c = '^' ∨ c = '$' then .other
  else .letter

/-- A text that stands for itself when it is read as a pattern. -/
def Plain (p : Text) : Prop := ∀ c ∈ p, token c = .letter

instance (p : Text) : Decidable (Plain p) := List.decidableBAll (fun c => token c = .letter) p

/-- The outcome of reading a pattern. -/
inductive Parsed where
  | unmodelled
  | invalid
  | pattern (r : Regex)

/-- What a backslash means together with the character behind it. -/
inductive Escape where
  | unmodelled
  | invalid
  /-- A letter that stands for itself. -/
  | letter (c : Char)

/-- One open group: finished alternatives and the items of the current one, the
last item first. A quantifier may follow only where `quantifiable` is set. -/
structure Level where
  alts : Option Regex
  items : List Regex
  quantifiable : Bool

namespace Level

/-- Nothing read yet. -/
def start : Level := ⟨none, [], false⟩

/-- The current alternative. -/
def body (l : Level) : Regex := l.items.reverse.foldr seq eps

/-- The whole group. -/
def close (l : Level) : Regex :=
  match l.alts with
  | none => l.body
  | some a => alt a l.body

/-- Append an item. -/
def push (l : Level) (r : Regex) : Level := ⟨l.alts, r :: l.items, true⟩

/-- Start the next alternative. -/
def next (l : Level) : Level := ⟨some l.close, [], false⟩

/-- Apply a quantifier to the last item; there is none at the start of an
alternative and behind another quantifier. -/
def quantify (l : Level) (f : Regex → Regex) : Option Level :=
  match l.quantifiable, l.items with
  | true, r :: items => some ⟨l.alts, f r :: items, false⟩
  | _, _ => none

end Level

/-- Read a pattern below the open groups `outer`; `n` groups have been opened so far, and
`escaped` says that the character before was a backslash. `escape` reads the character
behind it, and `eq` relates a pattern letter to the letters it matches. -/
def parseFrom (escape : Char → Escape) (eq : Char → Char → Bool) :
    Text → Bool → List Level → Level → Nat → Parsed
  | [], false, [], l, _ => .pattern l.close
  | [], false, _ :: _, _, _ => .invalid
  | [], true, _, _, _ => .invalid
  | c :: cs, true, outer, l, n =>
    match escape c with
    | .unmodelled => .unmodelled
    | .invalid => .invalid
    | .letter x => parseFrom escape eq cs false outer (l.push (set (eq x))) n
  | c :: cs, false, outer, l, n =>
    match token c with
    | .letter => parseFrom escape eq cs false outer (l.push (set (eq c))) n
    | .dot => parseFrom escape eq cs false outer (l.push (set fun x => x != '\n')) n
    | .opening =>
      if cs.head? = some '?' then .unmodelled
      else parseFrom escape eq cs false (l :: outer) Level.start (n + 1)
    | .closing =>
      match outer with
      | [] => .invalid
      | o :: outer => parseFrom escape eq cs false outer (o.push (group n l.close)) n
    | .bar => parseFrom escape eq cs false outer l.next n
    | .quantifier q =>
      match l.quantify q.apply with
      | none => .invalid
      | some l =>
        if cs.head? = some '?' then .unmodelled else parseFrom escape eq cs false outer l n
    | .escape => parseFrom escape eq cs true outer l n
    | .other => .unmodelled

/-- Read a whole pattern. -/
def parseWith (escape : Char → Escape) (eq : Char → Char → Bool) (p : Text) : Parsed :=
  parseFrom escape eq p false [] Level.start 0

/-- Read a whole pattern, with all escapes left open. -/
def parse (eq : Char → Char → Bool) (p : Text) : Parsed := parseWith (fun _ => .unmodelled) eq p

/-- A text of letters and dots. -/
def WithDots (p : Text) : Prop := ∀ c ∈ p, token c = .letter ∨ token c = .dot

instance (p : Text) : Decidable (WithDots p) :=
  List.decidableBAll (fun c => token c = .letter ∨ token c = .dot) p

/-- A dot stands for every character but a line break. -/
def dotEq (eq : Char → Char → Bool) (x y : Char) : Bool := if x = '.' then y != '\n' else eq x y

theorem dotEq_of_letter (eq : Char → Char → Bool) {c : Char} (hc : token c = .letter) :
    dotEq eq c = eq c := by
  funext x
  rw [dotEq, if_neg]
  rintro rfl
  cases hc

theorem dotEq_of_dot (eq : Char → Char → Bool) {c : Char} (hc : token c = .dot) :
    dotEq eq c = fun x => x != '\n' := by
  funext x
  rw [dotEq, if_pos]
  by_contra hne
  simp only [token, hne, if_false] at hc
  split_ifs at hc

theorem parseFrom_withDots (escape : Char → Escape) (eq : Char → Char → Bool) {p : Text}
    (hp : WithDots p) (items : List Regex) (b : Bool) (n : Nat) :
    ∃ b', parseFrom escape eq p false [] ⟨none, items, b⟩ n =
      .pattern (Level.close ⟨none, (p.map fun c => set (dotEq eq c)).reverse ++ items, b'⟩) := by
  induction p generalizing items b with
  | nil => exact ⟨b, rfl⟩
  | cons c p ih =>
    obtain ⟨b', hb'⟩ :=
      ih (fun d hd => hp d (List.mem_cons_of_mem c hd)) (set (dotEq eq c) :: items) true
    refine ⟨b', ?_⟩
    rcases hp c List.mem_cons_self with hc | hc
    · have hset := dotEq_of_letter eq hc
      rw [hset] at hb'
      simp only [parseFrom, hc, Level.push, hb', hset, List.map_cons, List.reverse_cons,
        List.append_assoc, List.singleton_append]
    · have hset := dotEq_of_dot eq hc
      rw [hset] at hb'
      simp only [parseFrom, hc, Level.push, hb', hset, List.map_cons, List.reverse_cons,
        List.append_assoc, List.singleton_append]

/-- A text of letters and dots is read as a literal with open places. -/
theorem parseWith_withDots (escape : Char → Escape) (eq : Char → Char → Bool) {p : Text}
    (hp : WithDots p) : parseWith escape eq p = .pattern (literal (dotEq eq) p) := by
  obtain ⟨b, hb⟩ := parseFrom_withDots escape eq hp [] false 0
  rw [parseWith, Level.start, hb]
  simp only [Level.close, Level.body, List.append_nil, List.reverse_reverse]
  congr 1
  clear hb hp
  induction p with
  | nil => rfl
  | cons c p ih => rw [List.map_cons, List.foldr_cons, ih, literal]

theorem parse_withDots (eq : Char → Char → Bool) {p : Text} (hp : WithDots p) :
    parse eq p = .pattern (literal (dotEq eq) p) :=
  parseWith_withDots _ eq hp

/-- A plain text is read as the literal it spells. -/
theorem parse_plain (eq : Char → Char → Bool) {p : Text} (hp : Plain p) :
    parse eq p = .pattern (literal eq p) := by
  have hliteral : literal (dotEq eq) p = literal eq p := by
    induction p with
    | nil => rfl
    | cons c p ih =>
      have hc : token c = .letter := hp c List.mem_cons_self
      rw [literal, literal, dotEq_of_letter eq hc, ih fun d hd => hp d (List.mem_cons_of_mem c hd)]
  rw [parse_withDots eq fun c hc => Or.inl (hp c hc), hliteral]

end Regex

/-! ## Engines -/

/-- How a pattern letter is compared with a letter of the text. -/
def letterEq [Culture] (ignoreCase : Bool) (x y : Char) : Bool :=
  if ignoreCase then Culture.lower x == Culture.lower y else x == y

/-- An implementation of regular expressions. `compile` gives nothing for a text
that is no valid pattern, and agrees with the matcher on the modelled patterns. -/
structure Engine [Culture] where
  compile : Bool → Text → Option (Text → Bool)
  compile_invalid : ∀ ignoreCase p,
    Regex.parse (letterEq ignoreCase) p = .invalid → compile ignoreCase p = none
  compile_pattern : ∀ ignoreCase p r,
    Regex.parse (letterEq ignoreCase) p = .pattern r → compile ignoreCase p = some r.isMatch

/-- The engine that knows the modelled patterns only. -/
def Engine.core [Culture] : Engine where
  compile ignoreCase p :=
    match Regex.parse (letterEq ignoreCase) p with
    | .pattern r => some r.isMatch
    | _ => none
  compile_invalid _ _ h := by rw [h]
  compile_pattern _ _ _ h := by rw [h]

section Engine

variable [Culture] (E : Engine)

/-- A plain pattern is valid, and without case it matches the texts that contain it
up to case. -/
theorem Engine.compile_plain {p : Text} (hp : Regex.Plain p) :
    ∃ test, E.compile true p = some test ∧
      ∀ t, test t = true ↔ toLower p <:+: toLower t := by
  refine ⟨_, E.compile_pattern true p _ (Regex.parse_plain _ hp), fun t => ?_⟩
  rw [Regex.isMatch_literal]
  have hrel : ∀ u : Text, List.Forall₂ (fun x y => letterEq true x y = true) p u ↔
      toLower p = toLower u := by
    intro u
    simp only [letterEq, ite_true, beq_iff_eq]
    calc List.Forall₂ (fun x y => Culture.lower x = Culture.lower y) p u
        ↔ List.Forall₂ Eq (toLower p) (toLower u) := by
          rw [toLower, toLower, List.forall₂_map_left_iff, List.forall₂_map_right_iff]
      _ ↔ toLower p = toLower u := by rw [List.forall₂_eq_eq_eq]
  simp only [hrel]
  constructor
  · rintro ⟨u, ⟨w, v, rfl⟩, hu⟩
    exact ⟨toLower w, toLower v, by rw [hu, toLower_append, toLower_append]⟩
  · rintro ⟨w, v, h⟩
    obtain ⟨wu, v', ht, hwu, hv⟩ := List.map_eq_append_iff.mp h.symm
    obtain ⟨w', u, rfl, hw, hu⟩ := List.map_eq_append_iff.mp hwu
    exact ⟨u, ⟨w', v', ht.symm⟩, hu.symm⟩

end Engine

end OpsScripts
