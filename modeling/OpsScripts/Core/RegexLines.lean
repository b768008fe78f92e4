import OpsScripts.Core.Occurrences

/-!
# Expressions that stay on a line

An expression whose character classes leave out the line break matches inside of lines
only: what it finds in a text of lines is what it finds in each line, one line after
the other. A pattern of the modelled part without a line break is such an expression.
-/

namespace OpsScripts

namespace Regex

variable {β : Type}

/-! ## Continuations -/

theorem loop_none {step : Text → Captures → Cont β → Option β}
    (hstep : ∀ s c, step s c (fun _ _ => none) = none) (n : Nat) (s : Text) (c : Captures) :
    loop step n s c (fun _ _ => none) = none := by
  induction n generalizing s c with
  | zero => rfl
  | succ n ih =>
    have hcont : (fun s' c' => if s'.length < s.length then loop step n s' c' (fun _ _ => none)
        else none) = fun (_ : Text) (_ : Captures) => none := by
      funext s' c'
      rw [ih, ite_self]
    rw [loop, hcont, hstep, Option.orElse_none]

/-- Where nothing can follow, nothing matches. -/
theorem run_none (r : Regex) (s : Text) (c : Captures) :
    run r s c (fun _ _ => (none : Option β)) = none := by
  induction r generalizing s c with
  | eps => rfl
  | set p =>
    cases s with
    | nil => rfl
    | cons x s =>
      rw [run]
      exact ite_self none
  | seq a b iha ihb => rw [run, funext₂ fun s' c' => ihb s' c', iha]
  | alt a b iha ihb => rw [run, iha, ihb, Option.orElse_none]
  | star a iha => exact loop_none iha _ s c
  | group i a iha => exact iha s c

theorem loop_map {γ : Type} (f : β → γ) {step : Text → Captures → Cont β → Option β}
    {step' : Text → Captures → Cont γ → Option γ}
    (hstep : ∀ s c k, step' s c (fun s' c' => (k s' c').map f) = (step s c k).map f) (n : Nat)
    (s : Text) (c : Captures) (k : Cont β) :
    loop step' n s c (fun s' c' => (k s' c').map f) = (loop step n s c k).map f := by
  induction n generalizing s c with
  | zero => rfl
  | succ n ih =>
    have hcont : (fun s' c' => if s'.length < s.length then
        loop step' n s' c' (fun s'' c'' => (k s'' c'').map f) else none) =
        fun s' c' => (if s'.length < s.length then loop step n s' c' k else none).map f := by
      funext s' c'
      rw [ih]
      split_ifs <;> rfl
    rw [loop, hcont, hstep, loop]
    cases step s c fun s' c' => if s'.length < s.length then loop step n s' c' k else none <;> rfl

/-- What is made of a match in the end can be made of it afterwards. -/
theorem run_map {γ : Type} (f : β → γ) (r : Regex) (s : Text) (c : Captures) (k : Cont β) :
    run r s c (fun s' c' => (k s' c').map f) = (run r s c k).map f := by
  induction r generalizing s c k with
  | eps => rfl
  | set p =>
    cases s with
    | nil => rfl
    | cons x s =>
      simp only [run]
      split_ifs <;> rfl
  | seq a b iha ihb => simp only [run, ihb, iha]
  | alt a b iha ihb =>
    rw [run, iha, ihb, run]
    cases run a s c k <;> rfl
  | star a iha => exact loop_map f iha _ s c k
  | group i a iha =>
    exact iha s c fun s' c' => k s' ((i, s.take (s.length - s'.length)) :: c')

/-! ## Lines -/

/-- The classes of an expression leave out the line break. -/
def OnLine : Regex → Prop
  | eps => True
  | set p => p '\n' = false
  | seq a b => OnLine a ∧ OnLine b
  | alt a b => OnLine a ∧ OnLine b
  | star a => OnLine a
  | group _ a => OnLine a

/-- Two continuations that agree on the rests of a line. -/
def Agree (rest l : Text) (k k' : Cont β) : Prop :=
  ∀ t c, t <:+ l → k (t ++ '\n' :: rest) c = k' t c

theorem Agree.mono {rest l t : Text} {k k' : Cont β} (h : Agree rest l k k') (ht : t <:+ l) :
    Agree rest t k k' :=
  fun s c hs => h s c (hs.trans ht)

theorem length_append_newline_lt {rest s t : Text} :
    (s ++ '\n' :: rest).length < (t ++ '\n' :: rest).length ↔ s.length < t.length := by
  simp only [List.length_append]
  omega

section Loop

variable {rest : Text} {step : Text → Captures → Cont β → Option β}
  (hstep : ∀ l c k k', Agree rest l k k' → step (l ++ '\n' :: rest) c k = step l c k')
  (hnone : ∀ s c, step s c (fun _ _ => none) = none)

include hstep hnone

/-- The repetition of such a step, whatever numbers of iterations are allowed. -/
theorem loop_line (l : Text) (c : Captures) {m n : Nat} (hm : l.length ≤ m) (hn : l.length ≤ n)
    {k k' : Cont β} (hk : Agree rest l k k') :
    loop step m (l ++ '\n' :: rest) c k = loop step n l c k' := by
  induction hlen : l.length using Nat.strong_induction_on generalizing l c m n with
  | _ len ih =>
    have hlast : k (l ++ '\n' :: rest) c = k' l c := hk l c List.suffix_rfl
    -- an iteration leaves a shorter rest, for which both sides agree
    have hiter : ∀ m' n' t c', t <:+ l → t.length < l.length → l.length ≤ m' + 1 →
        l.length ≤ n' + 1 → loop step m' (t ++ '\n' :: rest) c' k = loop step n' t c' k' := by
      intro m' n' t c' ht hlt hm' hn'
      exact ih t.length (hlen ▸ hlt) t c' (by omega) (by omega) (hk.mono ht) rfl
    have hempty : ∀ n', l.length ≤ 0 → loop step n' l c k' = k' l c := by
      intro n' hzero
      cases n' with
      | zero => rfl
      | succ n' =>
        have hcont : (fun s' c' => if s'.length < l.length then loop step n' s' c' k' else none) =
            fun (_ : Text) (_ : Captures) => none := by
          funext s' c'
          rw [if_neg (by omega)]
        rw [loop, hcont, hnone, Option.orElse_none]
    cases m with
    | zero => rw [loop, hlast, hempty n hm]
    | succ m =>
      cases n with
      | zero =>
        have hcont : Agree rest l (fun s' c' => if s'.length < (l ++ '\n' :: rest).length then
            loop step m s' c' k else none) fun _ _ => none := by
          intro t c' ht
          beta_reduce
          rw [if_neg (by rw [length_append_newline_lt]; omega)]
        have hzero : loop step 0 l c k' = k' l c := rfl
        rw [hzero, loop, hstep _ _ _ _ hcont, hnone, Option.orElse_none, hlast]
      | succ n =>
        have hcont : Agree rest l (fun s' c' => if s'.length < (l ++ '\n' :: rest).length then
            loop step m s' c' k else none) fun s' c' => if s'.length < l.length then
              loop step n s' c' k' else none := by
          intro t c' ht
          simp only [length_append_newline_lt]
          split_ifs with hlt
          · exact hiter m n t c' ht hlt hm hn
          · rfl
        rw [loop, hstep _ _ _ _ hcont, hlast, loop]

end Loop

/-- An expression on a line does not see what follows the line. -/
theorem run_line {r : Regex} (hr : OnLine r) {rest : Text} (l : Text) (c : Captures)
    {k k' : Cont β} (hk : Agree rest l k k') : run r (l ++ '\n' :: rest) c k = run r l c k' := by
  induction r generalizing l c k k' with
  | eps => exact hk l c List.suffix_rfl
  | set p =>
    cases l with
    | nil => rw [List.nil_append, run, run, hr, if_neg Bool.false_ne_true]
    | cons x l =>
      rw [List.cons_append, run, run]
      split_ifs
      · exact hk l c (List.suffix_cons x l)
      · rfl
  | seq a b iha ihb => exact iha hr.1 l c fun t c' ht => ihb hr.2 t c' (hk.mono ht)
  | alt a b iha ihb => rw [run, run, iha hr.1 l c hk, ihb hr.2 l c hk]
  | star a iha =>
    refine loop_line (fun l c k k' hk => iha hr l c hk) (run_none a) l c ?_ le_rfl hk
    rw [List.length_append]
    omega
  | group i a iha =>
    apply iha hr l c
    intro t c' ht
    have htext : (l ++ '\n' :: rest).take ((l ++ '\n' :: rest).length -
        (t ++ '\n' :: rest).length) = l.take (l.length - t.length) := by
      have hlength : (l ++ '\n' :: rest).length - (t ++ '\n' :: rest).length =
          l.length - t.length := by
        simp only [List.length_append]
        omega
      rw [hlength, List.take_append_of_le_length (Nat.sub_le _ _)]
    beta_reduce
    rw [htext]
    exact hk t _ ht

/-! ## Searches -/

/-- What a match leaves: a rest of the text, and captures that were there before or are
parts of the text. -/
def Leaves (s : Text) (c : Captures) (t : Text) (c' : Captures) : Prop :=
  t <:+ s ∧ ∀ e ∈ c', e ∈ c ∨ e.2 <:+: s

theorem Leaves.refl (s : Text) (c : Captures) : Leaves s c s c :=
  ⟨List.suffix_rfl, fun _ => Or.inl⟩

theorem Leaves.trans {s t u : Text} {c c' c'' : Captures} (h : Leaves s c t c')
    (h' : Leaves t c' u c'') : Leaves s c u c'' :=
  ⟨h'.1.trans h.1, fun e he => (h'.2 e he).elim (h.2 e) fun ht => Or.inr (ht.trans h.1.isInfix)⟩

theorem loop_some_leaves {step : Text → Captures → Cont β → Option β}
    (hstep : ∀ s c k x, step s c k = some x → ∃ t c', Leaves s c t c' ∧ k t c' = some x) (n : Nat)
    {s : Text} {c : Captures} {k : Cont β} {x : β} (h : loop step n s c k = some x) :
    ∃ t c', Leaves s c t c' ∧ k t c' = some x := by
  induction n generalizing s c with
  | zero => exact ⟨s, c, Leaves.refl s c, h⟩
  | succ n ih =>
    rw [loop, Option.orElse_eq_or, Option.or_eq_some_iff] at h
    rcases h with h | ⟨-, h⟩
    · obtain ⟨t, c', ht, hk⟩ := hstep _ _ _ _ h
      split_ifs at hk
      obtain ⟨u, c'', hu, hx⟩ := ih hk
      exact ⟨u, c'', ht.trans hu, hx⟩
    · exact ⟨s, c, Leaves.refl s c, h⟩

/-- A match goes on with what it leaves. -/
theorem run_some_leaves {r : Regex} {s : Text} {c : Captures} {k : Cont β} {x : β}
    (h : run r s c k = some x) : ∃ t c', Leaves s c t c' ∧ k t c' = some x := by
  induction r generalizing s c k x with
  | eps => exact ⟨s, c, Leaves.refl s c, h⟩
  | set p =>
    cases s with
    | nil => cases h
    | cons y s =>
      rw [run] at h
      split_ifs at h
      exact ⟨s, c, ⟨List.suffix_cons y s, fun _ => Or.inl⟩, h⟩
  | seq a b iha ihb =>
    obtain ⟨t, c', ht, hb⟩ := iha h
    obtain ⟨u, c'', hu, hx⟩ := ihb hb
    exact ⟨u, c'', ht.trans hu, hx⟩
  | alt a b iha ihb =>
    rw [run, Option.orElse_eq_or, Option.or_eq_some_iff] at h
    exact h.elim iha fun h => ihb h.2
  | star a iha => exact loop_some_leaves (fun _ _ _ _ h => iha h) _ h
  | group i a iha =>
    obtain ⟨t, c', ht, hx⟩ := iha h
    refine ⟨t, _, ⟨ht.1, fun e he => ?_⟩, hx⟩
    rcases List.mem_cons.mp he with rfl | he
    · exact Or.inr (List.take_prefix _ s).isInfix
    · exact ht.2 e he

/-- A match of nothing is passed over. -/
theorem findall_cons_of_empty {r : Regex} {x : Char} {s s' : Text} {c : Captures}
    (h : run r (x :: s) [] (fun s' c => some (s', c)) = some (s', c))
    (hlt : ¬s'.length < (x :: s).length) : findall r (x :: s) = c :: findall r s := by
  have hstep : ∀ n, findallFrom r (n + 1) (x :: s) = c :: findallFrom r n s := by
    intro n
    simp only [findallFrom, h, if_neg hlt]
  exact hstep _

/-- A group of a match is a part of the text. -/
theorem infix_of_leaves {s t : Text} {c : Captures} (h : Leaves s [] t c) (i : Nat) :
    c.text i <:+: s := by
  rw [Captures.text]
  cases hlookup : List.lookup i c with
  | none => exact List.nil_infix
  | some v =>
    have hmem : (i, v) ∈ c := by
      obtain ⟨l₁, l₂, rfl, -⟩ := List.lookup_eq_some_iff.mp hlookup
      exact List.mem_append_right l₁ List.mem_cons_self
    exact (h.2 _ hmem).resolve_left List.not_mem_nil

/-- What is found is a part of the text. -/
theorem infix_of_mem_findall {r : Regex} {s : Text} {c : Captures} (h : c ∈ findall r s) (i : Nat) :
    c.text i <:+: s := by
  induction hn : s.length using Nat.strong_induction_on generalizing s with
  | _ n ih =>
    cases hrun : run r s [] fun s' c => some (s', c) with
    | none =>
      cases s with
      | nil =>
        have hnil : findall r [] = [] := by simp only [findall, findallFrom, hrun]
        rw [hnil] at h
        cases h
      | cons x s =>
        rw [findall_cons_of_none hrun] at h
        have hlt : s.length < n := by
          rw [← hn, List.length_cons]
          omega
        exact (ih s.length hlt h rfl).trans (List.suffix_cons x s).isInfix
    | some m =>
      obtain ⟨t, c', hleaves, hsome⟩ := run_some_leaves hrun
      obtain rfl := Option.some.inj hsome
      have hfirst : c'.text i <:+: s := infix_of_leaves hleaves i
      by_cases hlt : t.length < s.length
      · rw [findall_of_some hrun hlt] at h
        rcases List.mem_cons.mp h with rfl | h
        · exact hfirst
        · exact (ih t.length (hn ▸ hlt) h rfl).trans hleaves.1.isInfix
      · cases s with
        | nil =>
          have hone : findall r [] = [c'] := by simp only [findall, findallFrom, hrun]
          rw [hone, List.mem_singleton] at h
          rw [h]
          exact hfirst
        | cons x s =>
          rw [findall_cons_of_empty hrun hlt] at h
          rcases List.mem_cons.mp h with rfl | h
          · exact hfirst
          · have hlt' : s.length < n := by
              rw [← hn, List.length_cons]
              omega
            exact (ih s.length hlt' h rfl).trans (List.suffix_cons x s).isInfix

/-- The matches on a line come before those behind it. -/
theorem findall_line {r : Regex} (hr : OnLine r) (l rest : Text) :
    findall r (l ++ '\n' :: rest) = findall r l ++ findall r rest := by
  induction hn : l.length using Nat.strong_induction_on generalizing l with
  | _ n ih =>
    have hagree : Agree rest l (fun s' c => some (s', c))
        fun t c => (some (t, c)).map fun m : Text × Captures => (m.1 ++ '\n' :: rest, m.2) :=
      fun t c _ => rfl
    have hwhole := run_line hr l [] hagree
    rw [run_map] at hwhole
    cases hrun : run r l [] fun s' c => some (s', c) with
    | none =>
      rw [hrun, Option.map_none] at hwhole
      cases l with
      | nil =>
        have hnil : findall r [] = [] := by simp only [findall, findallFrom, hrun]
        rw [List.nil_append] at hwhole ⊢
        rw [findall_cons_of_none hwhole, hnil, List.nil_append]
      | cons x l =>
        rw [List.cons_append] at hwhole ⊢
        rw [findall_cons_of_none hwhole, findall_cons_of_none hrun,
          ih l.length (by rw [← hn, List.length_cons]; omega) l rfl]
    | some m =>
      obtain ⟨t, c⟩ := m
      rw [hrun, Option.map_some] at hwhole
      obtain ⟨u, c', ⟨hu, -⟩, hsome⟩ := run_some_leaves hrun
      obtain ⟨rfl, rfl⟩ := Prod.mk.inj (Option.some.inj hsome)
      by_cases hlt : u.length < l.length
      · rw [findall_of_some hwhole (length_append_newline_lt.mpr hlt), findall_of_some hrun hlt,
          ih u.length (hn ▸ hlt) u rfl, List.cons_append]
      · have hle := hu.length_le
        cases l with
        | nil =>
          have hu' : u = [] := List.suffix_nil.mp hu
          subst hu'
          rw [List.nil_append] at hwhole ⊢
          have hnil : findall r [] = [c'] := by simp only [findall, findallFrom, hrun]
          rw [findall_cons_of_empty hwhole (Nat.lt_irrefl _), hnil, List.singleton_append]
        | cons x l =>
          rw [List.cons_append] at hwhole ⊢
          rw [findall_cons_of_empty hwhole (by
              rw [← List.cons_append, length_append_newline_lt]
              exact hlt), findall_cons_of_empty hrun hlt,
            ih l.length (by rw [← hn, List.length_cons]; omega) l rfl, List.cons_append]

/-- The matches in a text of lines. -/
theorem findall_unlines {r : Regex} (hr : OnLine r) (ls : List Text) :
    findall r (unlines ls) = ls.flatMap (findall r) ++ findall r [] := by
  induction ls with
  | nil => rfl
  | cons l ls ih =>
    have hcons : unlines (l :: ls) = l ++ '\n' :: unlines ls := by
      simp only [unlines, List.flatMap_cons, List.append_assoc, List.singleton_append]
    rw [hcons, findall_line hr, ih, List.flatMap_cons, List.append_assoc]

end Regex

/-! ## What follows a word -/

/-- The text behind the first occurrence of a word. -/
def behind (word : Text) : Text → Option Text
  | [] => if word = [] then some [] else none
  | x :: t => if word.isPrefixOf (x :: t) then some ((x :: t).drop word.length) else behind word t

/-- What is behind an occurrence ends the text. -/
theorem suffix_of_behind {word l t : Text} (h : behind word l = some t) : word ++ t <:+ l := by
  induction l with
  | nil =>
    rw [behind] at h
    split_ifs at h with hword
    obtain rfl := Option.some.inj h
    rw [hword, List.append_nil]
  | cons x l ih =>
    rw [behind] at h
    split_ifs at h with hprefix
    · obtain ⟨u, hu⟩ := List.isPrefixOf_iff_prefix.mp hprefix
      rw [← hu, List.drop_left] at h
      obtain rfl := Option.some.inj h
      rw [hu]
    · exact (ih h).trans (List.suffix_cons x l)

namespace Regex

/-- The expression that takes a word and in its group the rest of the line. -/
def following (word : Text) : Regex :=
  word.foldr (fun x r => seq (set fun y => x == y) r)
    (seq (group 1 (seq (star (set fun x => x != '\n')) eps)) eps)

theorem onLine_following {word : Text} (h : '\n' ∉ word) : (following word).OnLine := by
  induction word with
  | nil => exact ⟨⟨rfl, trivial⟩, trivial⟩
  | cons x word ih =>
    rw [List.mem_cons, not_or] at h
    exact ⟨beq_eq_false_iff_ne.mpr (Ne.symm h.1), ih h.2⟩

theorem run_following (word s : Text) (c : Captures) (k : Cont β) :
    run (following word) s c k =
      run (literal (fun x y => x == y) word) s c fun s' c' => run (following []) s' c' k := by
  induction word generalizing s with
  | nil => rfl
  | cons x word ih =>
    cases s with
    | nil => rfl
    | cons y s =>
      have hcons : following (x :: word) = seq (set fun y => x == y) (following word) := rfl
      rw [hcons, literal, run, run, run, run]
      split_ifs
      · exact ih s
      · rfl

theorem run_following_append {word t : Text} (ht : '\n' ∉ t) :
    run (following word) (word ++ t) [] (fun s' c => some (s', c)) = some ([], [(1, t)]) := by
  have hrest : run (following []) t [] (fun s' c => some (s', c)) =
      some (([], [(1, t)]) : Text × Captures) := by
    let k : Cont (Text × Captures) := fun s' c => some (s', (1, t.take (t.length - s'.length)) :: c)
    have hclass : ∀ x ∈ t ++ [], (x != '\n') = true := by
      rw [List.append_nil]
      exact ne_newline_of_notMem ht
    have hend : k ([] ++ []) [] = some ([], [(1, t)]) := by simp [k]
    have hstar : run (star (set fun x => x != '\n')) (t ++ ([] ++ [])) [] k = some ([], [(1, t)]) :=
      run_star_set_some (by rintro x ⟨⟩) hclass hend (by rintro x s u ⟨⟩)
    rw [List.append_nil, List.append_nil] at hstar
    exact hstar
  rw [run_following, run_literal_append, hrest]

theorem run_following_eq_none {word s : Text} (h : ¬word <+: s) (c : Captures) (k : Cont β) :
    run (following word) s c k = none := by
  rw [run_following, run_literal_eq_none h]

/-- On a line the search finds what is behind the first occurrence. -/
theorem findall_following {word l : Text} (hword : word ≠ []) (hl : '\n' ∉ l) :
    (findall (following word) l).map (fun c => c.text 1) = (behind word l).toList := by
  have hnil : findall (following word) [] = [] := by
    have hrun := run_following_eq_none (fun h => hword (List.prefix_nil.mp h)) []
      (fun s' c => some ((s', c) : Text × Captures))
    simp only [findall, findallFrom, hrun]
  induction l with
  | nil => rw [hnil, behind, if_neg hword, List.map_nil, Option.toList_none]
  | cons x l ih =>
    by_cases hprefix : word <+: x :: l
    · obtain ⟨t, ht⟩ := hprefix
      have hline : '\n' ∉ t := fun h => hl (ht ▸ List.mem_append_right word h)
      have hpos : 0 < word.length := List.length_pos_of_ne_nil hword
      have hbehind : behind word (x :: l) = some t := by
        rw [behind, ← ht, if_pos (List.isPrefixOf_iff_prefix.mpr (List.prefix_append word t)),
          List.drop_left]
      rw [hbehind, ← ht, findall_of_some (run_following_append hline)
        (by rw [List.length_append, List.length_nil]; omega), hnil]
      rfl
    · rw [findall_cons_of_none (run_following_eq_none hprefix [] _), behind,
        if_neg (by rwa [List.isPrefixOf_iff_prefix]),
        ih fun h => hl (List.mem_cons_of_mem x h)]

/-- The texts behind the first occurrences, line by line. -/
theorem findall_following_unlines {word : Text} (hword : word ≠ []) (hbreak : '\n' ∉ word)
    {ls : List Text} (hls : ∀ l ∈ ls, '\n' ∉ l) :
    (findall (following word) (unlines ls)).map (fun c => c.text 1) =
      ls.filterMap (behind word) := by
  have hnil : (findall (following word) []).map (fun c => c.text 1) = [] :=
    (findall_following hword List.not_mem_nil).trans (by rw [behind, if_neg hword]; rfl)
  rw [findall_unlines (onLine_following hbreak), List.map_append, hnil, List.append_nil]
  induction ls with
  | nil => rfl
  | cons l ls ih =>
    rw [List.flatMap_cons, List.map_append, findall_following hword (hls l List.mem_cons_self),
      ih fun m hm => hls m (List.mem_cons_of_mem l hm)]
    cases hb : behind word l with
    | none => rw [List.filterMap_cons_none hb, Option.toList_none, List.nil_append]
    | some t => rw [List.filterMap_cons_some hb, Option.toList_some, List.singleton_append]

end Regex

end OpsScripts
