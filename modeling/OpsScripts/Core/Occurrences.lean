import OpsScripts.Core.KeyValue

/-!
# Counting a word in a text

`re.findall` of a literal word lists the occurrences from left to right that do not
overlap. A word none of whose ends is one of its beginnings has no overlapping
occurrences, so the list has one item for every place at which the word begins. Such
a count is additive over separators that the word does not contain.
-/

namespace OpsScripts

/-- The number of places at which a word begins. -/
def occurrences (word : Text) : Text → Nat
  | [] => if word = [] then 1 else 0
  | x :: t => (if word.isPrefixOf (x :: t) then 1 else 0) + occurrences word t

/-- A word that is not empty and begins with none of its own proper ends. -/
def Borderless (word : Text) : Prop :=
  word ≠ [] ∧ ∀ s, s <:+ word → s ≠ word → s ≠ [] → ¬s <+: word

instance (word : Text) : Decidable (Borderless word) :=
  decidable_of_iff (word ≠ [] ∧ word.tails.all fun s =>
      decide (s = word) || (decide (s = []) || !s.isPrefixOf word)) <| by
    simp only [Borderless, List.all_eq_true, List.mem_tails, Bool.or_eq_true, decide_eq_true_eq,
      Bool.not_eq_true', ← Bool.not_eq_true, List.isPrefixOf_iff_prefix, or_iff_not_imp_left, Ne]

/-! ## Places -/

variable {word : Text}

theorem occurrences_nil (h : word ≠ []) : occurrences word [] = 0 := by
  rw [occurrences, if_neg h]

theorem occurrences_cons_of_not_begins {x : Char} {t : Text} (h : ¬word <+: x :: t) :
    occurrences word (x :: t) = occurrences word t := by
  rw [occurrences, if_neg (by rwa [List.isPrefixOf_iff_prefix]), Nat.zero_add]

theorem occurrences_cons_of_begins {x : Char} {t : Text} (h : word <+: x :: t) :
    occurrences word (x :: t) = 1 + occurrences word t := by
  rw [occurrences, if_pos (List.isPrefixOf_iff_prefix.mpr h)]

/-- A word occurs in a text when the count is not zero. -/
theorem occurrences_eq_zero_iff (h : word ≠ []) (t : Text) :
    occurrences word t = 0 ↔ ¬word <:+: t := by
  induction t with
  | nil => simp [occurrences, h]
  | cons x t ih =>
    by_cases hx : word <+: x :: t
    · rw [occurrences_cons_of_begins hx]
      exact iff_of_false (by omega) (not_not_intro hx.isInfix)
    · rw [occurrences_cons_of_not_begins hx, ih, List.infix_cons_iff, not_or, and_iff_right hx]

/-- No word reaches over a separator that it does not contain. -/
theorem prefix_append_cons_iff {sep : Char} (hsep : sep ∉ word) (s t : Text) :
    word <+: s ++ sep :: t ↔ word <+: s := by
  constructor
  · rintro ⟨u, hu⟩
    rcases List.append_eq_append_iff.mp hu with ⟨v, rfl, -⟩ | ⟨v, rfl, hv⟩
    · exact ⟨v, rfl⟩
    · cases v with
      | nil => simp
      | cons y v =>
        obtain rfl : sep = y := (List.cons.inj hv).1
        exact absurd (List.mem_append_right s List.mem_cons_self) hsep
  · exact fun h => h.trans (List.prefix_append s _)

/-- The count is additive over such a separator. -/
theorem occurrences_append_cons {sep : Char} (hword : word ≠ []) (hsep : sep ∉ word)
    (s t : Text) :
    occurrences word (s ++ sep :: t) = occurrences word s + occurrences word t := by
  induction s with
  | nil =>
    have hnot : ¬word <+: sep :: t := fun h =>
      hword (List.prefix_nil.mp ((prefix_append_cons_iff hsep [] t).mp h))
    rw [List.nil_append, occurrences_cons_of_not_begins hnot, occurrences_nil hword, Nat.zero_add]
  | cons x s ih =>
    rw [List.cons_append, occurrences, occurrences, ih, ← List.cons_append]
    simp only [List.isPrefixOf_iff_prefix, prefix_append_cons_iff hsep]
    omega

/-- Trailing separators hold no occurrence. -/
theorem occurrences_append_replicate {sep : Char} (hword : word ≠ []) (hsep : sep ∉ word)
    (s : Text) (n : Nat) : occurrences word (s ++ List.replicate n sep) = occurrences word s := by
  induction n with
  | zero => rw [List.replicate_zero, List.append_nil]
  | succ n ih =>
    rw [List.replicate_succ', ← List.append_assoc, occurrences_append_cons hword hsep, ih,
      occurrences_nil hword, Nat.add_zero]

/-! ## Words without borders -/

/-- Behind the beginning of an occurrence the next one cannot begin before its end. -/
theorem Borderless.occurrences_suffix (h : Borderless word) {s : Text} (hs : s <:+ word)
    (hne : s ≠ word) (t : Text) : occurrences word (s ++ t) = occurrences word t := by
  induction s with
  | nil => rfl
  | cons x s ih =>
    have htail : s <:+ word := (List.suffix_cons x s).trans hs
    have hshorter : s ≠ word := by
      rintro rfl
      exact absurd hs.length_le (by simp)
    have hnot : ¬word <+: x :: (s ++ t) := by
      intro hp
      refine h.2 (x :: s) hs hne (List.cons_ne_nil x s) ?_
      exact List.prefix_of_prefix_length_le (List.prefix_append (x :: s) t) hp hs.length_le
    rw [List.cons_append, occurrences_cons_of_not_begins hnot, ih htail hshorter]

/-- One more occurrence in front. -/
theorem Borderless.occurrences_append (h : Borderless word) (t : Text) :
    occurrences word (word ++ t) = 1 + occurrences word t := by
  obtain ⟨x, s, rfl⟩ := List.exists_cons_of_ne_nil h.1
  have hp : x :: s <+: x :: (s ++ t) := List.prefix_append (x :: s) t
  rw [List.cons_append, occurrences_cons_of_begins hp,
    h.occurrences_suffix (List.suffix_cons x s) (List.cons_ne_self x s).symm]

theorem Borderless.occurrences_self (h : Borderless word) : occurrences word word = 1 := by
  have hself := h.occurrences_append []
  rwa [List.append_nil, occurrences_nil h.1] at hself

/-! ## The search -/

namespace Regex

/-- The literal expression of a word, all of it in the group `0`. -/
def exactly (word : Text) : Regex := group 0 (literal (fun x y => x == y) word)

theorem run_literal_append {β : Type} (word s : Text) (c : Captures) (k : Cont β) :
    run (literal (fun x y => x == y) word) (word ++ s) c k = k s c := by
  induction word with
  | nil => rfl
  | cons x word ih => simp only [literal, run, List.cons_append, beq_self_eq_true, if_true, ih]

theorem run_literal_eq_none {β : Type} {word s : Text} (h : ¬word <+: s) (c : Captures)
    (k : Cont β) : run (literal (fun x y => x == y) word) s c k = none := by
  induction word generalizing s with
  | nil => exact absurd List.nil_prefix h
  | cons x word ih =>
    cases s with
    | nil => rfl
    | cons y s =>
      by_cases hxy : x = y
      · subst hxy
        have hs : ¬word <+: s := fun hp => h (List.cons_prefix_cons.mpr ⟨rfl, hp⟩)
        simp only [literal, run, beq_self_eq_true, if_true, ih hs]
      · simp only [literal, run, beq_iff_eq, if_neg hxy]

/-- The search for a word without borders finds each of its occurrences. -/
theorem findall_exactly (h : Borderless word) (t : Text) :
    findall (exactly word) t = List.replicate (occurrences word t) [(0, word)] := by
  induction hn : t.length using Nat.strong_induction_on generalizing t with
  | _ n ih =>
    by_cases hp : word <+: t
    · obtain ⟨s, rfl⟩ := hp
      have hpos : 0 < word.length := List.length_pos_of_ne_nil h.1
      have hrun : run (exactly word) (word ++ s) [] (fun s' c => some (s', c)) =
          some (s, [(0, word)]) := by
        rw [exactly, run, run_literal_append, List.length_append, Nat.add_sub_cancel,
          List.take_left]
      rw [findall_of_some hrun (by rw [List.length_append]; omega), h.occurrences_append,
        Nat.add_comm, List.replicate_succ, ih s.length _ s rfl]
      rw [← hn, List.length_append]
      omega
    · have hrun : run (exactly word) t [] (fun s' c => some (s', c)) = none := by
        rw [exactly, run, run_literal_eq_none hp]
      cases t with
      | nil =>
        simp only [occurrences_nil h.1, findall, findallFrom, hrun, List.replicate_zero]
      | cons x t =>
        rw [findall_cons_of_none hrun, occurrences_cons_of_not_begins hp, ih t.length _ t rfl]
        rw [← hn, List.length_cons]
        omega

end Regex

end OpsScripts
