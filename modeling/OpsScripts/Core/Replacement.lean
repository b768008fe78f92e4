import OpsScripts.Core.Text

/-!
# Replacements in a text

`Replace` takes the occurrences of a text from left to right. `occurrence_induction` follows it:
either an occurrence is at the front, or one letter is passed.
-/

namespace OpsScripts

theorem contains_iff {s t : Text} : contains s t = true ↔ s <:+: t := by
  rw [contains, List.any_eq_true]
  constructor
  · rintro ⟨u, hu, hs⟩
    exact (List.isPrefixOf_iff_prefix.mp hs).isInfix.trans ((List.mem_tails u t).mp hu).isInfix
  · rintro ⟨a, b, rfl⟩
    refine ⟨s ++ b, (List.mem_tails _ _).mpr ?_, List.isPrefixOf_iff_prefix.mpr ⟨b, rfl⟩⟩
    exact ⟨a, (List.append_assoc a s b).symm⟩

theorem contains_eq_false_iff {s t : Text} : contains s t = false ↔ ¬s <:+: t := by
  rw [← contains_iff, Bool.not_eq_true]

/-- A text with a letter that does not occur is not contained. -/
theorem contains_eq_false_of_mem {s t : Text} {c : Char} (hs : c ∈ s) (ht : c ∉ t) :
    contains s t = false :=
  contains_eq_false_iff.mpr fun h => ht (h.subset hs)

section Replace

variable {old : Text} (hold : old ≠ [])

include hold

/-- Steps that are left over do nothing. -/
theorem replaceFrom_of_le (new : Text) {n : Nat} {t : Text} (h : t.length ≤ n) :
    replaceFrom old new n t = replace old new t := by
  have hpos := List.length_pos_of_ne_nil hold
  have hsteps : ∀ m n : Nat, ∀ t : Text, t.length ≤ m → t.length ≤ n →
      replaceFrom old new m t = replaceFrom old new n t := by
    intro m
    induction m with
    | zero =>
      intro n t hm _
      rw [List.length_eq_zero_iff.mp (Nat.le_zero.mp hm)]
      cases n <;> rfl
    | succ m ih =>
      intro n t hm hn
      cases t with
      | nil => cases n <;> rfl
      | cons c t =>
        obtain ⟨n, rfl⟩ : ∃ k, n = k + 1 := ⟨n - 1, by rw [List.length_cons] at hn; omega⟩
        rw [List.length_cons] at hm hn
        rw [replaceFrom, replaceFrom]
        split_ifs
        · rw [ih n _ (by rw [List.length_drop, List.length_cons]; omega)
            (by rw [List.length_drop, List.length_cons]; omega)]
        · rw [ih n t (by omega) (by omega)]
  exact hsteps n t.length t h le_rfl

/-- An occurrence at the front is replaced. -/
theorem replace_append_left (new t : Text) :
    replace old new (old ++ t) = new ++ replace old new t := by
  obtain ⟨c, cs, rfl⟩ := List.exists_cons_of_ne_nil hold
  have hbegins : (c :: cs).isPrefixOf (c :: (cs ++ t)) = true :=
    List.isPrefixOf_iff_prefix.mpr ⟨t, rfl⟩
  have hdrop : (c :: (cs ++ t)).drop (c :: cs).length = t := List.drop_left
  rw [replace, List.cons_append, List.length_cons, replaceFrom, if_pos hbegins, hdrop,
    replaceFrom_of_le hold new (by rw [List.length_append]; omega)]

omit hold in
/-- Another letter is passed. -/
theorem replace_cons (new : Text) {c : Char} {t : Text} (h : ¬old <+: c :: t) :
    replace old new (c :: t) = c :: replace old new t := by
  rw [replace, List.length_cons, replaceFrom,
    if_neg fun hbegins => h (List.isPrefixOf_iff_prefix.mp hbegins), replace]

/-- Either an occurrence is at the front, or one letter is passed. -/
theorem occurrence_induction {motive : Text → Prop} (nil : motive [])
    (found : ∀ t, motive t → motive (old ++ t))
    (passed : ∀ c t, ¬old <+: c :: t → motive t → motive (c :: t)) (t : Text) : motive t := by
  induction hn : t.length using Nat.strong_induction_on generalizing t with
  | _ n ih =>
    by_cases hbegins : old <+: t
    · obtain ⟨u, rfl⟩ := hbegins
      have hpos := List.length_pos_of_ne_nil hold
      refine found u (ih u.length ?_ u rfl)
      rw [List.length_append] at hn
      omega
    · cases t with
      | nil => exact nil
      | cons c t => exact passed c t hbegins (ih t.length (by rw [← hn]; simp) t rfl)

/-- A letter that cannot stand in an occurrence parts the text. -/
theorem replace_append_cons (new s t : Text) {c : Char} (hc : c ∉ old) :
    replace old new (s ++ c :: t) = replace old new s ++ c :: replace old new t := by
  induction s using occurrence_induction hold with
  | nil =>
    have hbegins : ¬old <+: c :: t := by
      rintro ⟨u, hu⟩
      obtain ⟨d, ds, rfl⟩ := List.exists_cons_of_ne_nil hold
      obtain ⟨rfl, -⟩ := List.cons.inj hu
      exact hc List.mem_cons_self
    exact replace_cons new hbegins
  | found s ih =>
    rw [List.append_assoc, replace_append_left hold, replace_append_left hold, ih,
      List.append_assoc]
  | passed d s hbegins ih =>
    have hlonger : ¬old <+: d :: (s ++ c :: t) := by
      intro h
      have hend : (d :: s) ++ [c] <+: d :: (s ++ c :: t) :=
        ⟨t, by simp only [List.cons_append, List.append_assoc, List.nil_append]⟩
      rcases List.prefix_or_prefix_of_prefix h hend with hshort | hlong
      · rcases List.prefix_concat_iff.mp hshort with rfl | hshort
        · exact hc (List.mem_append_right _ (List.mem_singleton_self c))
        · exact hbegins hshort
      · exact hc (hlong.subset (List.mem_append_right _ (List.mem_singleton_self c)))
    rw [List.cons_append, replace_cons new hlonger, ih, replace_cons new hbegins,
      List.cons_append]

/-- A text without an occurrence stays. -/
theorem replace_eq_self (new : Text) {t : Text} (h : contains old t = false) :
    replace old new t = t := by
  rw [contains_eq_false_iff] at h
  induction t using occurrence_induction hold with
  | nil => rfl
  | found t _ => exact absurd (List.prefix_append old t).isInfix h
  | passed c t hbegins ih =>
    have htail : ¬old <:+: t := fun hwithin => h (hwithin.trans (List.suffix_cons c t).isInfix)
    rw [replace_cons new hbegins, ih htail]

/-- The whole text is replaced. -/
theorem replace_self (new : Text) : replace old new old = new := by
  have happend := replace_append_left hold new []
  rwa [List.append_nil, show replace old new [] = [] from rfl, List.append_nil] at happend

/-- A shorter text in every place makes the text shorter, unless there is none. -/
theorem length_replace {new : Text} (hlt : new.length < old.length) (t : Text) :
    (replace old new t).length ≤ t.length ∧
      (contains old t = true → (replace old new t).length < t.length) := by
  rw [contains_iff]
  induction t using occurrence_induction hold with
  | nil => exact ⟨le_rfl, fun h => absurd (List.infix_nil.mp h) hold⟩
  | found t ih =>
    rw [replace_append_left hold, List.length_append, List.length_append]
    exact ⟨by omega, fun _ => by omega⟩
  | passed c t hbegins ih =>
    rw [replace_cons new hbegins, List.length_cons, List.length_cons, List.infix_cons_iff]
    exact ⟨by omega, fun h => Nat.succ_lt_succ (ih.2 (h.resolve_left hbegins))⟩

/-- A letter that the occurrences do not have is not lost, and with an occurrence those of the
new text come in addition. -/
theorem count_replace {c : Char} (hc : c ∉ old) (new t : Text) :
    t.count c ≤ (replace old new t).count c ∧
      (contains old t = true → t.count c + new.count c ≤ (replace old new t).count c) := by
  rw [contains_iff]
  induction t using occurrence_induction hold with
  | nil => exact ⟨le_rfl, fun h => absurd (List.infix_nil.mp h) hold⟩
  | found t ih =>
    rw [replace_append_left hold, List.count_append, List.count_append,
      List.count_eq_zero_of_not_mem hc]
    exact ⟨by omega, fun _ => by omega⟩
  | passed d t hbegins ih =>
    rw [replace_cons new hbegins, List.count_cons, List.count_cons, List.infix_cons_iff]
    refine ⟨by omega, fun h => ?_⟩
    have htail := ih.2 (h.resolve_left hbegins)
    omega

/-- A beginning without letters of the new text was one before. -/
theorem prefix_of_prefix_replace {new word t : Text} (hne : new ≠ []) (hnew : ∀ c ∈ new, c ∉ word)
    (h : word <+: replace old new t) : word <+: t := by
  induction t using occurrence_induction hold generalizing word with
  | nil => exact h
  | found t _ =>
    rw [replace_append_left hold] at h
    obtain ⟨x, new, rfl⟩ := List.exists_cons_of_ne_nil hne
    cases word with
    | nil => exact List.nil_prefix
    | cons c word =>
      obtain ⟨rfl, -⟩ := List.cons_prefix_cons.mp h
      exact absurd List.mem_cons_self (hnew c List.mem_cons_self)
  | passed d t hbegins ih =>
    rw [replace_cons new hbegins] at h
    cases word with
    | nil => exact List.nil_prefix
    | cons c word =>
      obtain ⟨rfl, htail⟩ := List.cons_prefix_cons.mp h
      exact List.cons_prefix_cons.mpr
        ⟨rfl, ih (fun x hx hword => hnew x hx (List.mem_cons_of_mem _ hword)) htail⟩

omit hold in
/-- An occurrence without letters of a text stands behind it. -/
theorem infix_of_infix_append {new word t : Text} (hword : word ≠ [])
    (hnew : ∀ c ∈ new, c ∉ word) (h : word <:+: new ++ t) : word <:+: t := by
  induction new with
  | nil => exact h
  | cons x new ih =>
    rw [List.forall_mem_cons] at hnew
    rcases List.infix_cons_iff.mp h with hbegins | h
    · obtain ⟨c, word, rfl⟩ := List.exists_cons_of_ne_nil hword
      obtain ⟨rfl, -⟩ := List.cons_prefix_cons.mp hbegins
      exact absurd List.mem_cons_self hnew.1
    · exact ih hnew.2 h

/-- A replacement brings no occurrence of a text without its letters. -/
theorem infix_of_infix_replace {new word t : Text} (hne : new ≠ []) (hword : word ≠ [])
    (hnew : ∀ c ∈ new, c ∉ word) (h : word <:+: replace old new t) : word <:+: t := by
  induction t using occurrence_induction hold with
  | nil => exact h
  | found t ih =>
    rw [replace_append_left hold] at h
    exact (ih (infix_of_infix_append hword hnew h)).trans (List.suffix_append old t).isInfix
  | passed d t hbegins ih =>
    rw [replace_cons new hbegins] at h
    rcases List.infix_cons_iff.mp h with hprefix | h
    · rw [← replace_cons new hbegins] at hprefix
      exact (prefix_of_prefix_replace hold hne hnew hprefix).isInfix
    · exact (ih h).trans (List.suffix_cons d t).isInfix

/-- No occurrence is left. -/
theorem contains_replace {new : Text} (hne : new ≠ []) (hnew : ∀ c ∈ new, c ∉ old) (t : Text) :
    contains old (replace old new t) = false := by
  rw [contains_eq_false_iff]
  induction t using occurrence_induction hold with
  | nil => exact fun h => hold (List.infix_nil.mp h)
  | found t ih =>
    rw [replace_append_left hold]
    exact fun h => ih (infix_of_infix_append hold hnew h)
  | passed d t hbegins ih =>
    rw [replace_cons new hbegins]
    intro h
    rcases List.infix_cons_iff.mp h with hprefix | h
    · rw [← replace_cons new hbegins] at hprefix
      exact hbegins (prefix_of_prefix_replace hold hne hnew hprefix)
    · exact ih h

end Replace

/-! ## Tables of replacements -/

/-- The replacements of a table, one behind the other. -/
def replaceAll (table : List (Text × Text)) (t : Text) : Text :=
  table.foldl (fun t e => replace e.1 e.2 t) t

/-- No new text has a letter of a text that is replaced. -/
structure Apart (table : List (Text × Text)) : Prop where
  old_ne_nil : ∀ e ∈ table, e.1 ≠ []
  new_ne_nil : ∀ e ∈ table, e.2 ≠ []
  notMem : ∀ e ∈ table, ∀ e' ∈ table, ∀ c ∈ e.2, c ∉ e'.1

/-- A text without all that is replaced stays. -/
theorem replaceAll_eq_self {table : List (Text × Text)} (hold : ∀ e ∈ table, e.1 ≠ []) {t : Text}
    (h : ∀ e ∈ table, contains e.1 t = false) : replaceAll table t = t := by
  induction table with
  | nil => rfl
  | cons e table ih =>
    rw [List.forall_mem_cons] at hold h
    rw [replaceAll, List.foldl_cons, replace_eq_self hold.1 e.2 h.1]
    exact ih hold.2 h.2

/-- The replacements of a table bring no occurrence of a text without their letters. -/
theorem infix_of_infix_replaceAll {table : List (Text × Text)} (hold : ∀ e ∈ table, e.1 ≠ [])
    (hne : ∀ e ∈ table, e.2 ≠ []) {word : Text} (hword : word ≠ [])
    (hnew : ∀ e ∈ table, ∀ c ∈ e.2, c ∉ word) {t : Text} (h : word <:+: replaceAll table t) :
    word <:+: t := by
  induction table generalizing t with
  | nil => exact h
  | cons e table ih =>
    rw [List.forall_mem_cons] at hold hne hnew
    exact infix_of_infix_replace hold.1 hne.1 hword hnew.1 (ih hold.2 hne.2 hnew.2 h)

/-- Behind the last replacement nothing is left of what is replaced. -/
theorem Apart.contains_replaceAll {table : List (Text × Text)} (h : Apart table) (t : Text)
    {e : Text × Text} (he : e ∈ table) : contains e.1 (replaceAll table t) = false := by
  obtain ⟨before, behind, rfl⟩ := List.append_of_mem he
  have hbehind : ∀ e' ∈ behind, e' ∈ before ++ e :: behind := fun e' he' =>
    List.mem_append_right _ (List.mem_cons_of_mem _ he')
  have hgone := contains_replace (h.old_ne_nil e he) (h.new_ne_nil e he) (h.notMem e he e he)
    (replaceAll before t)
  rw [contains_eq_false_iff] at hgone ⊢
  rw [replaceAll, List.foldl_append, List.foldl_cons]
  intro hinfix
  exact hgone (infix_of_infix_replaceAll (fun e' he' => h.old_ne_nil e' (hbehind e' he'))
    (fun e' he' => h.new_ne_nil e' (hbehind e' he')) (h.old_ne_nil e he)
    (fun e' he' => h.notMem e' (hbehind e' he') e he) hinfix)

/-- A text is changed exactly if it has something to replace. -/
theorem Apart.replaceAll_eq_self_iff {table : List (Text × Text)} (h : Apart table) (t : Text) :
    replaceAll table t = t ↔ ∀ e ∈ table, contains e.1 t = false := by
  constructor
  · intro heq e he
    rw [← heq]
    exact h.contains_replaceAll t he
  · exact replaceAll_eq_self h.old_ne_nil

/-! ## Marked texts -/

/-- What is replaced begins with a mark and has no other one, and none of it begins another one;
what is put in its place has no letter of it. -/
structure Marked (mark : Char) (table : List (Text × Text)) : Prop extends Apart table where
  head : ∀ e ∈ table, ∃ rest, e.1 = mark :: rest ∧ mark ∉ rest
  apart : ∀ e ∈ table, ∀ e' ∈ table, e.1 <+: e'.1 → e = e'

section Marked

variable {mark : Char} {table : List (Text × Text)}

theorem Marked.tail {e : Text × Text} (h : Marked mark (e :: table)) : Marked mark table where
  old_ne_nil e' he' := h.old_ne_nil e' (List.mem_cons_of_mem e he')
  new_ne_nil e' he' := h.new_ne_nil e' (List.mem_cons_of_mem e he')
  notMem e' he' e'' he'' :=
    h.notMem e' (List.mem_cons_of_mem e he') e'' (List.mem_cons_of_mem e he'')
  head e' he' := h.head e' (List.mem_cons_of_mem e he')
  apart e' he' e'' he'' :=
    h.apart e' (List.mem_cons_of_mem e he') e'' (List.mem_cons_of_mem e he'')

/-- A letter at which nothing begins is passed by all replacements. -/
theorem Marked.replaceAll_cons (h : Marked mark table) {x : Char} {t : Text}
    (hx : ∀ e ∈ table, ¬e.1 <+: x :: t) : replaceAll table (x :: t) = x :: replaceAll table t := by
  induction table generalizing t with
  | nil => rfl
  | cons e table ih =>
    obtain ⟨hbegins, hx⟩ := List.forall_mem_cons.mp hx
    have hpassed := replace_cons e.2 hbegins
    have hrest : ∀ e' ∈ table, ¬e'.1 <+: x :: replace e.1 e.2 t := by
      intro e' he' hprefix
      rw [← hpassed] at hprefix
      exact hx e' he' (prefix_of_prefix_replace (h.old_ne_nil e List.mem_cons_self)
        (h.new_ne_nil e List.mem_cons_self)
        (h.notMem e List.mem_cons_self e' (List.mem_cons_of_mem e he')) hprefix)
    have htail := ih h.tail hrest
    simp only [replaceAll, List.foldl_cons, hpassed] at htail ⊢
    exact htail

/-- Letters other than the mark are passed. -/
theorem Marked.replaceAll_append (h : Marked mark table) {s : Text} (hs : mark ∉ s) (t : Text) :
    replaceAll table (s ++ t) = s ++ replaceAll table t := by
  induction s with
  | nil => rfl
  | cons x s ih =>
    rw [List.mem_cons, not_or] at hs
    rw [List.cons_append, h.replaceAll_cons, ih hs.2, List.cons_append]
    intro e he hprefix
    obtain ⟨rest, hrest, -⟩ := h.head e he
    rw [hrest, List.cons_prefix_cons] at hprefix
    exact hs.1 hprefix.1

/-- What begins at the front is replaced, by its own row of the table. -/
theorem Marked.replaceAll_found (h : Marked mark table) {e : Text × Text} (he : e ∈ table)
    (t : Text) : replaceAll table (e.1 ++ t) = e.2 ++ replaceAll table t := by
  induction table generalizing t with
  | nil => cases he
  | cons e' table ih =>
    have hold := h.old_ne_nil e' List.mem_cons_self
    obtain ⟨rest, hrest, hmark⟩ := h.head e he
    by_cases heq : e = e'
    · subst heq
      have hnew : mark ∉ e.2 := fun hmem =>
        h.notMem e he e he mark hmem (hrest ▸ List.mem_cons_self)
      have happend := h.tail.replaceAll_append hnew (replace e.1 e.2 t)
      simp only [replaceAll, List.foldl_cons, replace_append_left hold] at happend ⊢
      exact happend
    · -- the other row passes the mark and the letters behind it
      obtain ⟨rest', hrest', -⟩ := h.head e' List.mem_cons_self
      have hbegins : ¬e'.1 <+: mark :: (rest ++ t) := by
        intro hprefix
        have hself : e.1 <+: mark :: (rest ++ t) := ⟨t, by rw [hrest, List.cons_append]⟩
        rcases List.prefix_or_prefix_of_prefix hprefix hself with h' | h'
        · exact heq (h.apart e' List.mem_cons_self e he h').symm
        · exact heq (h.apart e he e' List.mem_cons_self h')
      have hpass : ∀ s : Text, mark ∉ s →
          replace e'.1 e'.2 (s ++ t) = s ++ replace e'.1 e'.2 t := by
        intro s hs
        induction s with
        | nil => rfl
        | cons x s ihs =>
          rw [List.mem_cons, not_or] at hs
          rw [List.cons_append, replace_cons, ihs hs.2, List.cons_append]
          rw [hrest', List.cons_prefix_cons]
          exact fun hprefix => hs.1 hprefix.1
      have hstep : replace e'.1 e'.2 (e.1 ++ t) = e.1 ++ replace e'.1 e'.2 t := by
        rw [hrest, List.cons_append, replace_cons e'.2 hbegins, hpass rest hmark, List.cons_append]
      have htail := ih h.tail ((List.mem_cons.mp he).resolve_left heq) (replace e'.1 e'.2 t)
      simp only [replaceAll, List.foldl_cons, hstep] at htail ⊢
      exact htail

end Marked

/-- The replacement of one character by another, character by character. -/
theorem replace_singleton (c d : Char) (t : Text) :
    replace [c] [d] t = t.map fun x => if x = c then d else x := by
  have hne : [c] ≠ [] := List.cons_ne_nil c []
  induction t using occurrence_induction hne with
  | nil => rfl
  | found t ih =>
    rw [replace_append_left hne, ih, List.map_append, List.map_singleton, if_pos rfl]
  | passed x t hbegins ih =>
    have hx : x ≠ c := fun heq => hbegins ⟨t, by rw [heq, List.singleton_append]⟩
    rw [replace_cons [d] hbegins, ih, List.map_cons, if_neg hx]

/-- The replacement of one character by a text, character by character. -/
theorem replace_letter (c : Char) (new t : Text) :
    replace [c] new t = t.flatMap fun x => if x = c then new else [x] := by
  have hne : [c] ≠ [] := List.cons_ne_nil c []
  induction t using occurrence_induction hne with
  | nil => rfl
  | found t ih =>
    rw [replace_append_left hne, ih, List.flatMap_append, List.flatMap_singleton, if_pos rfl]
  | passed x t hbegins ih =>
    have hx : x ≠ c := fun heq => hbegins ⟨t, by rw [heq, List.singleton_append]⟩
    rw [replace_cons new hbegins, ih, List.flatMap_cons, if_neg hx, List.singleton_append]

/-- Replacements of characters take each part of a text by itself. -/
theorem replaceAll_letters_append {table : List (Text × Text)} (h : ∀ e ∈ table, ∃ c, e.1 = [c])
    (s t : Text) : replaceAll table (s ++ t) = replaceAll table s ++ replaceAll table t := by
  induction table generalizing s t with
  | nil => rfl
  | cons e table ih =>
    obtain ⟨⟨c, hc⟩, htable⟩ := List.forall_mem_cons.mp h
    have hstep : replace e.1 e.2 (s ++ t) = replace e.1 e.2 s ++ replace e.1 e.2 t := by
      rw [hc, replace_letter, replace_letter, replace_letter, List.flatMap_append]
    have htail := ih htable (replace e.1 e.2 s) (replace e.1 e.2 t)
    simp only [replaceAll, List.foldl_cons, hstep] at htail ⊢
    exact htail

end OpsScripts
