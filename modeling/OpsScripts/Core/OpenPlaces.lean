import OpsScripts.Core.Occurrences
import OpsScripts.Core.Substitution

/-!
# Replacement of patterns with open places

A pattern is matched letter by letter, up to a relation in which a dot may stand for any letter.
A word that a replacement neither contains nor can lend its first or last letter is in the outcome
only if it was in the text, and the pattern itself is gone.
-/

namespace OpsScripts

namespace Regex

variable {β : Type} {eq : Char → Char → Bool} {p : Text}

/-- The text begins with a match. -/
def Begins (eq : Char → Char → Bool) (p s : Text) : Prop :=
  ∃ u v, s = u ++ v ∧ List.Forall₂ (fun x y => eq x y = true) p u

/-- A match at the front. -/
theorem run_literal_of_match {u : Text} (h : List.Forall₂ (fun x y => eq x y = true) p u)
    (s : Text) (c : Captures) (k : Cont β) : run (literal eq p) (u ++ s) c k = k s c := by
  induction h with
  | nil => rfl
  | cons hxy _ ih =>
    rw [literal, run, List.cons_append, run, if_pos hxy]
    exact ih

/-- No match at the front. -/
theorem run_literal_of_not_begins {s : Text} (h : ¬Begins eq p s) (c : Captures) (k : Cont β) :
    run (literal eq p) s c k = none := by
  induction p generalizing s with
  | nil => exact absurd ⟨[], s, rfl, .nil⟩ h
  | cons x p ih =>
    cases s with
    | nil => rfl
    | cons y s =>
      rw [literal, run, run]
      split_ifs with hxy
      · apply ih
        rintro ⟨u, v, rfl, hu⟩
        exact h ⟨y :: u, v, rfl, .cons hxy hu⟩
      · rfl

/-- The outcome of a replacement: either a match is at the front, or one letter is passed. -/
inductive Substituted (eq : Char → Char → Bool) (p new : Text) : Text → Text → Prop
  | nil : Substituted eq p new [] []
  | found {u s out : Text} (h : List.Forall₂ (fun x y => eq x y = true) p u)
    (hrest : Substituted eq p new s out) : Substituted eq p new (u ++ s) (new ++ out)
  | passed {c : Char} {s out : Text} (h : ¬Begins eq p (c :: s))
    (hrest : Substituted eq p new s out) : Substituted eq p new (c :: s) (c :: out)

namespace Substituted

variable {new : Text}

/-- Every text has an outcome. -/
theorem exists_out (hp : p ≠ []) (new t : Text) : ∃ out, Substituted eq p new t out := by
  induction hn : t.length using Nat.strong_induction_on generalizing t with
  | _ n ih =>
    by_cases hbegins : Begins eq p t
    · obtain ⟨u, s, rfl, hu⟩ := hbegins
      have hpos := List.length_pos_of_ne_nil hp
      rw [hu.length_eq] at hpos
      rw [List.length_append] at hn
      obtain ⟨out, hout⟩ := ih s.length (by omega) s rfl
      exact ⟨new ++ out, .found hu hout⟩
    · cases t with
      | nil => exact ⟨[], .nil⟩
      | cons c s =>
        rw [List.length_cons] at hn
        obtain ⟨out, hout⟩ := ih s.length (by omega) s rfl
        exact ⟨c :: out, .passed hbegins hout⟩

/-- The outcome is computed. -/
theorem substitute_eq (hp : p ≠ []) {t out : Text} (h : Substituted eq p new t out) :
    substitute (literal eq p) (fun _ _ _ => new) t = out := by
  have hfrom : ∀ n front, t.length < n →
      substituteFrom (literal eq p) (fun _ _ _ => new) n front t = out := by
    induction h with
    | nil =>
      intro n front _
      have hnil : ¬Begins eq p [] := by
        rintro ⟨u, v, huv, hu⟩
        obtain ⟨rfl, -⟩ := List.append_eq_nil_iff.mp huv.symm
        exact hp (List.forall₂_nil_right_iff.mp hu)
      exact substituteFrom_nil (run_literal_of_not_begins hnil _ _) _ n front
    | @found u s out hu _ ih =>
      intro n front hn
      obtain ⟨n, rfl⟩ := Nat.exists_eq_succ_of_ne_zero (Nat.ne_zero_of_lt hn)
      have hpos := List.length_pos_of_ne_nil hp
      rw [hu.length_eq] at hpos
      rw [List.length_append] at hn
      rw [substituteFrom_append (List.ne_nil_of_length_pos hpos) (run_literal_of_match hu _ _ _),
        ih n _ (by omega)]
    | @passed c s out hbegins _ ih =>
      intro n front hn
      obtain ⟨n, rfl⟩ := Nat.exists_eq_succ_of_ne_zero (Nat.ne_zero_of_lt hn)
      rw [List.length_cons] at hn
      rw [substituteFrom_cons (run_literal_of_not_begins hbegins _ _), ih n _ (by omega)]
  exact hfrom _ _ (Nat.lt_succ_self _)

/-! ## Words in the outcome -/

/-- No word without a letter reaches over it. -/
theorem infix_append_cons_iff {w : Text} {c : Char} (hw : w ≠ []) (hc : c ∉ w) (s t : Text) :
    w <:+: s ++ c :: t ↔ w <:+: s ∨ w <:+: t := by
  induction s with
  | nil =>
    have hbegins : ¬w <+: c :: t := by
      intro h
      obtain ⟨x, w', rfl⟩ := List.exists_cons_of_ne_nil hw
      exact hc ((List.cons_prefix_cons.mp h).1 ▸ List.mem_cons_self)
    rw [List.nil_append, List.infix_cons_iff, List.infix_nil]
    exact or_congr_left (iff_of_false hbegins hw)
  | cons x s ih =>
    rw [List.cons_append, List.infix_cons_iff, List.infix_cons_iff, ih, ← List.cons_append,
      prefix_append_cons_iff hc, or_assoc]

variable [Culture] {w : Text}

/-- A word is apart from a text: neither within it nor with its first or last letter. -/
structure Walled (w new : Text) : Prop where
  ends : ∃ a mid b, toLower new = a :: (mid ++ [b]) ∧ a ∉ w ∧ b ∉ w ∧ ¬w <:+: mid

/-- A beginning of the outcome was one of the text. -/
theorem begins_of_walled (hw : Walled w new) {t out word : Text} (h : Substituted eq p new t out)
    (hword : word ⊆ w) (hbegins : word <+: toLower out) : word <+: toLower t := by
  induction h generalizing word with
  | nil => exact hbegins
  | found =>
    obtain ⟨a, mid, b, hnew, ha, -, -⟩ := hw.ends
    rw [toLower_append, hnew] at hbegins
    cases word with
    | nil => exact List.nil_prefix
    | cons x word =>
      obtain ⟨rfl, -⟩ := List.cons_prefix_cons.mp hbegins
      exact absurd (hword List.mem_cons_self) ha
  | @passed c s out _ _ ih =>
    cases word with
    | nil => exact List.nil_prefix
    | cons x word =>
      obtain ⟨rfl, hrest⟩ := List.cons_prefix_cons.mp hbegins
      exact List.cons_prefix_cons.mpr
        ⟨rfl, ih (fun y hy => hword (List.mem_cons_of_mem _ hy)) hrest⟩

/-- A word in a text behind what is put in its place. -/
theorem infix_of_infix_walled (hw : Walled w new) (hne : w ≠ []) {out : Text}
    (h : w <:+: toLower (new ++ out)) : w <:+: toLower out := by
  obtain ⟨a, mid, b, hnew, ha, hb, hmid⟩ := hw.ends
  rw [toLower_append, hnew, List.cons_append, List.append_assoc, List.singleton_append,
    ← List.nil_append (a :: _), infix_append_cons_iff hne ha, infix_append_cons_iff hne hb] at h
  rcases h with h | h | h
  · exact absurd (List.infix_nil.mp h) hne
  · exact absurd h hmid
  · exact h

/-- A word in the outcome was in the text. -/
theorem infix_of_infix (hw : Walled w new) (hne : w ≠ []) {t out : Text}
    (h : Substituted eq p new t out) (hout : w <:+: toLower out) : w <:+: toLower t := by
  induction h with
  | nil => exact hout
  | @found u s out _ _ ih =>
    rw [toLower_append]
    exact (ih (infix_of_infix_walled hw hne hout)).trans (List.suffix_append _ _).isInfix
  | @passed c s out hnot hrest ih =>
    rcases List.infix_cons_iff.mp hout with hbegins | hout
    · exact (begins_of_walled hw (.passed hnot hrest) (List.Subset.refl _) hbegins).isInfix
    · exact (ih hout).trans (List.suffix_cons _ _).isInfix

/-- The pattern is gone if it matches itself. -/
theorem not_infix (hw : Walled (toLower p) new) (hne : p ≠ [])
    (hself : ∀ u, toLower u = toLower p → List.Forall₂ (fun x y => eq x y = true) p u)
    {t out : Text} (h : Substituted eq p new t out) : ¬toLower p <:+: toLower out := by
  have hne' : toLower p ≠ [] := mt List.map_eq_nil_iff.mp hne
  induction h with
  | nil => exact fun h => hne' (List.infix_nil.mp h)
  | found _ _ ih => exact fun h => ih (infix_of_infix_walled hw hne' h)
  | @passed c s out hnot hrest ih =>
    intro hout
    rcases List.infix_cons_iff.mp hout with hbegins | hout
    · have hbegins := begins_of_walled hw (.passed hnot hrest) (List.Subset.refl _) hbegins
      obtain ⟨u, v, huv, hu⟩ := exists_of_toLower_begins hbegins
      exact hnot ⟨u, v, huv, hself u hu⟩
    · exact ih hout

end Substituted

end Regex

end OpsScripts
