import OpsScripts.Core.Text

/-!
# Backtracking regular expressions

A matcher in continuation style with the priorities of the usual engines:
alternatives from left to right, repetition greedy, an iteration that
consumes nothing is not repeated. Character classes are predicates, so the
same matcher serves searches with and without case.
-/

namespace OpsScripts

/-- Regular expressions with numbered groups. -/
inductive Regex where
  | eps
  | set (p : Char → Bool)
  | seq (a b : Regex)
  | alt (a b : Regex)
  | star (a : Regex)
  | group (i : Nat) (a : Regex)

namespace Regex

/-- The texts of the groups closed so far, the latest first. -/
abbrev Captures := List (Nat × Text)

/-- What remains to be done at a position; `none` makes the matcher backtrack. -/
abbrev Cont (β : Type) := Text → Captures → Option β

variable {β : Type}

/-- Greedy repetition of one step, at most `n` times. -/
def loop (step : Text → Captures → Cont β → Option β) : Nat → Text → Captures → Cont β → Option β
  | 0, s, c, k => k s c
  | n + 1, s, c, k =>
    (step s c fun s' c' => if s'.length < s.length then loop step n s' c' k else none).orElse
      fun _ => k s c

/-- Match a prefix of the text and go on with the rest. -/
def run : Regex → Text → Captures → Cont β → Option β
  | eps, s, c, k => k s c
  | set p, s, c, k =>
    match s with
    | [] => none
    | x :: xs => if p x then k xs c else none
  | seq a b, s, c, k => run a s c fun s' c' => run b s' c' k
  | alt a b, s, c, k => (run a s c k).orElse fun _ => run b s c k
  | star a, s, c, k => loop (run a) s.length s c k
  | group i a, s, c, k =>
    run a s c fun s' c' => k s' ((i, s.take (s.length - s'.length)) :: c')

/-- Some position of the text starts a match. -/
def isMatch (r : Regex) (t : Text) : Bool :=
  t.tails.any fun s => (run r s [] fun _ _ => some ()).isSome

/-- All matches from left to right, each search starting where the last one ended. -/
def findallFrom (r : Regex) : Nat → Text → List Captures
  | 0, _ => []
  | n + 1, s =>
    match run r s [] fun s' c => some (s', c), s with
    | some (_, c), [] => [c]
    | some (s', c), _ :: t => c :: findallFrom r n (if s'.length < s.length then s' else t)
    | none, [] => []
    | none, _ :: t => findallFrom r n t

/-- `re.findall`, with the captures of every match. -/
def findall (r : Regex) (t : Text) : List Captures := findallFrom r (t.length + 1) t

/-! ## Literals -/

/-- The expression that matches a text letter by letter, up to the relation `eq`. -/
def literal (eq : Char → Char → Bool) : Text → Regex
  | [] => eps
  | x :: xs => seq (set (eq x)) (literal eq xs)

/-- A literal matches a prefix exactly when the letters are related one by one. -/
theorem run_literal (eq : Char → Char → Bool) (p s : Text) (c : Captures) :
    (run (literal eq p) s c fun _ _ => some ()).isSome = true ↔
      ∃ u v, s = u ++ v ∧ List.Forall₂ (fun x y => eq x y = true) p u := by
  induction p generalizing s with
  | nil =>
    simp only [literal, run, Option.isSome_some, true_iff]
    exact ⟨[], s, rfl, List.Forall₂.nil⟩
  | cons x p ih =>
    cases s with
    | nil =>
      simp only [literal, run, Option.isSome_none, Bool.false_eq_true, false_iff]
      rintro ⟨u, v, huv, hu⟩
      cases hu
      simp at huv
    | cons y s =>
      by_cases hxy : eq x y = true
      · simp only [literal, run, hxy, ite_true, ih s]
        constructor
        · rintro ⟨u, v, rfl, hu⟩
          exact ⟨y :: u, v, rfl, List.Forall₂.cons hxy hu⟩
        · rintro ⟨u, v, huv, hu⟩
          cases hu with
          | cons _ hu =>
            obtain ⟨rfl, rfl⟩ := List.cons.inj huv
            exact ⟨_, v, rfl, hu⟩
      · simp only [literal, run, hxy, Bool.false_eq_true, ite_false, Option.isSome_none, false_iff]
        rintro ⟨u, v, huv, hu⟩
        cases hu with
        | cons hx _ =>
          obtain ⟨rfl, rfl⟩ := List.cons.inj huv
          exact hxy hx

/-- A literal occurs somewhere exactly when a related text is an infix. -/
theorem isMatch_literal (eq : Char → Char → Bool) (p t : Text) :
    isMatch (literal eq p) t = true ↔
      ∃ u, u <:+: t ∧ List.Forall₂ (fun x y => eq x y = true) p u := by
  simp only [isMatch, List.any_eq_true, List.mem_tails, run_literal]
  constructor
  · rintro ⟨s, ⟨w, rfl⟩, u, v, rfl, hu⟩
    exact ⟨u, ⟨w, v, by simp⟩, hu⟩
  · rintro ⟨u, ⟨w, v, rfl⟩, hu⟩
    exact ⟨u ++ v, ⟨w, by simp⟩, u, v, rfl, hu⟩

end Regex

end OpsScripts
