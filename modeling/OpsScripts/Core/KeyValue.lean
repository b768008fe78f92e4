import OpsScripts.Core.RegexSyntax

/-!
# Listings of keys and values

The expression `(.*):(.*)` and what a search for all its matches finds in a
text of lines: one match for each line with a colon, cut at the last colon of
that line, and nothing for the others. Records of one width that were laid out
one after the other are found again by their places.
-/

namespace OpsScripts

/-! ## Cutting at the last separator -/

/-- The text before and the text behind the last separator. -/
def cutLast (sep : Char) : Text → Option (Text × Text)
  | [] => none
  | c :: cs =>
    match cutLast sep cs with
    | some (s, t) => some (c :: s, t)
    | none => if c = sep then some ([], cs) else none

theorem cutLast_eq_none {sep : Char} {t : Text} (h : sep ∉ t) : cutLast sep t = none := by
  induction t with
  | nil => rfl
  | cons c t ih =>
    rw [List.mem_cons, not_or] at h
    simp only [cutLast, ih h.2, if_neg (Ne.symm h.1)]

theorem cutLast_append_cons {sep : Char} (s : Text) {t : Text} (h : sep ∉ t) :
    cutLast sep (s ++ sep :: t) = some (s, t) := by
  induction s with
  | nil => simp only [List.nil_append, cutLast, cutLast_eq_none h, if_true]
  | cons c s ih => simp only [List.cons_append, cutLast, ih]

/-- The part behind the last separator is the last piece. -/
theorem cutLast_of_mem {sep : Char} {t : Text} (h : sep ∈ t) :
    ∃ s, cutLast sep t = some (s, lastPiece sep t) ∧ t = s ++ sep :: lastPiece sep t := by
  obtain ⟨s, u, rfl, hu⟩ := exists_last_split h
  rw [lastPiece_append_cons, lastPiece_of_notMem hu]
  exact ⟨s, cutLast_append_cons s hu, rfl⟩

namespace Regex

/-! ## Greedy repetition of a character class -/

section Greedy

variable {β : Type} (p : Char → Bool) (k : Cont β) (c : Captures)

theorem run_star_set_cons (x : Char) (s : Text) : run (star (set p)) (x :: s) c k =
    if p x then (run (star (set p)) s c k).orElse fun _ => k (x :: s) c else k (x :: s) c := by
  by_cases hx : p x = true
  · simp only [run, List.length_cons, loop, hx, if_true, Nat.lt_succ_self]
  · simp only [run, List.length_cons, loop, hx, if_false, Bool.false_eq_true, Option.orElse_none]

variable {p k c} {rest : Text}

/-- The class ends where the rest begins. -/
theorem run_star_set_stop (hrest : ∀ x ∈ rest.head?, p x = false) :
    run (star (set p)) rest c k = k rest c := by
  cases rest with
  | nil => rfl
  | cons x rest =>
    have hx : p x = false := hrest x rfl
    rw [run_star_set_cons, if_neg (by rw [hx]; exact Bool.false_ne_true)]

/-- Every way to end the repetition fails. -/
theorem run_star_set_none (hrest : ∀ x ∈ rest.head?, p x = false) {l : Text}
    (hl : ∀ x ∈ l, p x = true) (hk : ∀ s t, l = s ++ t → k (t ++ rest) c = none) :
    run (star (set p)) (l ++ rest) c k = none := by
  induction l with
  | nil =>
    rw [List.nil_append, run_star_set_stop hrest]
    exact hk [] [] rfl
  | cons x l ih =>
    have htail : run (star (set p)) (l ++ rest) c k = none :=
      ih (fun y hy => hl y (List.mem_cons_of_mem x hy))
        fun s t hst => hk (x :: s) t (by rw [hst, List.cons_append])
    rw [List.cons_append, run_star_set_cons, if_pos (hl x List.mem_cons_self), htail,
      Option.orElse_none]
    exact hk [] (x :: l) rfl

/-- The repetition ends at the last place where the rest of the expression matches. -/
theorem run_star_set_some (hrest : ∀ x ∈ rest.head?, p x = false) {l m : Text} {r : β}
    (hl : ∀ x ∈ l ++ m, p x = true) (hr : k (m ++ rest) c = some r)
    (hk : ∀ x s t, m = x :: s ++ t → k (t ++ rest) c = none) :
    run (star (set p)) (l ++ (m ++ rest)) c k = some r := by
  induction l with
  | nil =>
    cases m with
    | nil => rw [List.nil_append, List.nil_append, run_star_set_stop hrest, ← hr, List.nil_append]
    | cons x m =>
      have htail : run (star (set p)) (m ++ rest) c k = none :=
        run_star_set_none hrest (fun y hy => hl y (List.mem_cons_of_mem x hy))
          fun s t hst => hk x s t (by rw [hst, List.cons_append])
      rw [List.nil_append, List.cons_append, run_star_set_cons,
        if_pos (hl x List.mem_cons_self), htail, Option.orElse_none]
      exact hr
  | cons x l ih =>
    have htail := ih fun y hy => hl y (List.mem_cons_of_mem x hy)
    rw [List.cons_append, run_star_set_cons, if_pos (hl x List.mem_cons_self), htail,
      Option.orElse_some]

end Greedy

/-! ## Searching for all matches -/

/-- The number of steps allowed does not matter as long as it exceeds the length. -/
theorem findallFrom_congr (r : Regex) {s : Text} {m n : Nat} (hm : s.length < m)
    (hn : s.length < n) : findallFrom r m s = findallFrom r n s := by
  induction m generalizing s n with
  | zero => exact absurd hm (Nat.not_lt_zero _)
  | succ m ih =>
    cases n with
    | zero => exact absurd hn (Nat.not_lt_zero _)
    | succ n =>
      cases s with
      | nil =>
        cases hrun : run r [] [] fun s' c => some (s', c) with
        | none => simp only [findallFrom, hrun]
        | some sc => simp only [findallFrom, hrun]
      | cons x s =>
        rw [List.length_cons] at hm hn
        cases hrun : run r (x :: s) [] fun s' c => some (s', c) with
        | none =>
          simp only [findallFrom, hrun]
          exact ih (by omega) (by omega)
        | some sc =>
          obtain ⟨s', c⟩ := sc
          simp only [findallFrom, hrun]
          congr 1
          by_cases hlt : s'.length < (x :: s).length
          · have hlen := hlt
            rw [List.length_cons] at hlen
            rw [if_pos hlt]
            exact ih (by omega) (by omega)
          · rw [if_neg hlt]
            exact ih (by omega) (by omega)

theorem findall_cons_of_none {r : Regex} {x : Char} {s : Text}
    (h : run r (x :: s) [] (fun s' c => some (s', c)) = none) :
    findall r (x :: s) = findall r s := by
  simp only [findall, List.length_cons, findallFrom, h]

theorem findall_of_some {r : Regex} {s s' : Text} {c : Captures}
    (h : run r s [] (fun s' c => some (s', c)) = some (s', c)) (hlt : s'.length < s.length) :
    findall r s = c :: findall r s' := by
  cases s with
  | nil => exact absurd hlt (Nat.not_lt_zero _)
  | cons x s =>
    simp only [findall, findallFrom, h, if_pos hlt]
    exact congrArg (c :: ·) (findallFrom_congr r hlt (Nat.lt_succ_self _))

/-- The text of a group, empty when the group took no part in the match. -/
def Captures.text (c : Captures) (i : Nat) : Text := (c.lookup i).getD []

/-! ## Lines with a key and a value -/

/-- `(.*):(.*)`. -/
def keyValue : Regex :=
  let line := star (set fun x => x != '\n')
  seq (group 1 (seq line eps)) (seq (set fun x => ':' == x) (seq (group 2 (seq line eps)) eps))

theorem parse_keyValue : parse (fun x y => x == y) "(.*):(.*)".toList = .pattern keyValue := rfl

section KeyValue

variable {l rest : Text}

theorem ne_newline_of_notMem (h : '\n' ∉ l) : ∀ x ∈ l, (x != '\n') = true := by
  intro x hx
  rw [bne_iff_ne]
  rintro rfl
  exact h hx

theorem head?_newline : ∀ x ∈ ('\n' :: rest).head?, (x != '\n') = false := by
  intro x hx
  obtain rfl : '\n' = x := by simpa using hx
  rfl

theorem colon_ne_head (hcolon : ':' ∉ l) : ∀ x ∈ (l ++ '\n' :: rest).head?, (':' == x) = false := by
  intro x hx
  cases l with
  | nil =>
    obtain rfl : '\n' = x := by simpa using hx
    rfl
  | cons y l =>
    obtain rfl : y = x := by simpa using hx
    rw [beq_eq_false_iff_ne]
    rintro rfl
    exact hcolon List.mem_cons_self

/-- What follows the first group fails where no colon comes next. -/
theorem run_colon_none {β : Type} (r : Regex) {s : Text}
    (hs : ∀ x ∈ s.head?, (':' == x) = false) (c : Captures) (k : Cont β) :
    run (seq (set fun x => ':' == x) r) s c k = none := by
  cases s with
  | nil => rfl
  | cons x s => simp only [run, hs x rfl, Bool.false_eq_true, if_false]

/-- No match begins on a line without a colon. -/
theorem run_keyValue_none (hline : '\n' ∉ l) (hcolon : ':' ∉ l) :
    run keyValue (l ++ '\n' :: rest) [] (fun s' c => some (s', c)) = none := by
  apply run_star_set_none head?_newline (ne_newline_of_notMem hline)
  intro s t hst
  apply run_colon_none
  apply colon_ne_head
  intro ht
  exact hcolon (hst ▸ List.mem_append_right s ht)

/-- A match that begins on a line takes the line up to its end, cut at the last colon. -/
theorem run_keyValue_some {key value : Text} (hline : '\n' ∉ key ++ ':' :: value)
    (hcolon : ':' ∉ value) :
    run keyValue (key ++ (':' :: value ++ '\n' :: rest)) [] (fun s' c => some (s', c)) =
      some ('\n' :: rest, [(2, value), (1, key)]) := by
  have hvalue : '\n' ∉ value := fun h =>
    hline (List.mem_append_right key (List.mem_cons_of_mem ':' h))
  apply run_star_set_some head?_newline (ne_newline_of_notMem hline)
  · -- the second group takes the rest of the line
    simp only [run, List.cons_append, beq_self_eq_true, if_true]
    have hsecond : ∀ k : Cont (Text × Captures), ∀ c r, k ('\n' :: rest) c = some r →
        run (star (set fun x => x != '\n')) (value ++ '\n' :: rest) c k = some r := by
      intro k c r hr
      refine run_star_set_some (m := []) head?_newline ?_ hr ?_
      · rw [List.append_nil]
        exact ne_newline_of_notMem hvalue
      · intro x s t hst
        cases hst
    apply hsecond
    simp
  · intro x s t hst
    obtain ⟨-, hst⟩ := List.cons.inj hst
    apply run_colon_none
    apply colon_ne_head
    intro ht
    exact hcolon (hst ▸ List.mem_append_right s ht)

theorem findall_keyValue_of_notMem (hline : '\n' ∉ l) (hcolon : ':' ∉ l) :
    findall keyValue (l ++ '\n' :: rest) = findall keyValue rest := by
  induction l with
  | nil => exact findall_cons_of_none (run_keyValue_none hline hcolon)
  | cons x l ih =>
    rw [← ih (fun h => hline (List.mem_cons_of_mem x h)) fun h => hcolon (List.mem_cons_of_mem x h)]
    exact findall_cons_of_none (run_keyValue_none hline hcolon)

/-- One line gives one match or none. -/
theorem findall_keyValue_line (hline : '\n' ∉ l) : findall keyValue (l ++ '\n' :: rest) =
    ((cutLast ':' l).map fun kv => [(2, kv.2), (1, kv.1)]).toList ++ findall keyValue rest := by
  by_cases hcolon : ':' ∈ l
  · obtain ⟨key, value, rfl, hvalue⟩ := exists_last_split hcolon
    have hnewline : findall keyValue ('\n' :: rest) = findall keyValue rest :=
      findall_keyValue_of_notMem (l := []) List.not_mem_nil List.not_mem_nil
    rw [cutLast_append_cons key hvalue, List.append_assoc, 
      findall_of_some (run_keyValue_some hline hvalue), hnewline]
    · rfl
    · simp only [List.length_append, List.length_cons]
      omega
  · rw [cutLast_eq_none hcolon, findall_keyValue_of_notMem hline hcolon]
    rfl

end KeyValue

end Regex

/-! ## Texts of lines -/

/-- A text made of lines, each ended by a line break. -/
def unlines (ls : List Text) : Text := ls.flatMap fun l => l ++ ['\n']

/-- A text without a line break; an output that is read as text has both of them. -/
def OneLine (t : Text) : Prop := '\n' ∉ t ∧ '\r' ∉ t

instance (t : Text) : Decidable (OneLine t) := inferInstanceAs (Decidable (_ ∧ _))

/-- All matches of `(.*):(.*)` as pairs of the two groups. -/
def findallKeyValue (t : Text) : List (Text × Text) :=
  (Regex.findall Regex.keyValue t).map fun c => (c.text 1, c.text 2)

/-- The matches in a text of lines are the lines with a colon, cut at the last one. -/
theorem findallKeyValue_unlines {ls : List Text} (h : ∀ l ∈ ls, '\n' ∉ l) :
    findallKeyValue (unlines ls) = ls.filterMap (cutLast ':') := by
  induction ls with
  | nil => rfl
  | cons l ls ih =>
    have hl : '\n' ∉ l := h l List.mem_cons_self
    have ihls := ih fun m hm => h m (List.mem_cons_of_mem l hm)
    have hcons : unlines (l :: ls) = l ++ '\n' :: unlines ls := by
      simp only [unlines, List.flatMap_cons, List.append_assoc, List.singleton_append]
    rw [findallKeyValue] at ihls
    rw [findallKeyValue, hcons, Regex.findall_keyValue_line hl, List.map_append, ihls]
    cases hcut : cutLast ':' l with
    | none => simp only [List.filterMap_cons, hcut, Option.map_none, Option.toList_none,
        List.map_nil, List.nil_append]
    | some kv =>
      rw [List.filterMap_cons_some hcut]
      rfl

/-! ## Records of one width -/

section Records

universe u v

variable {α : Type u} {β : Type v} {n : Nat}

theorem length_flatMap_ofFn (f : α → Fin n → β) (xs : List α) :
    (xs.flatMap fun x => List.ofFn (f x)).length = xs.length * n := by
  simp [List.length_flatMap]

/-- The cell `j` of the record `i`. -/
theorem getElem?_flatMap_ofFn (f : α → Fin n → β) (xs : List α) (i : Nat) (j : Fin n) :
    (xs.flatMap fun x => List.ofFn (f x))[i * n + j]? = xs[i]?.map fun x => f x j := by
  induction xs generalizing i with
  | nil => rfl
  | cons x xs ih =>
    rw [List.flatMap_cons]
    cases i with
    | zero =>
      rw [Nat.zero_mul, Nat.zero_add, List.getElem?_append_left (by simp)]
      simp
    | succ i =>
      have hplace : (i + 1) * n + j - (List.ofFn (f x)).length = i * n + j := by
        rw [List.length_ofFn, Nat.succ_mul]
        omega
      rw [List.getElem?_append_right (by rw [List.length_ofFn, Nat.succ_mul]; omega), hplace, ih,
        List.getElem?_cons_succ]

/-- A loop whose passes all succeed collects their results. -/
theorem mapM_eq_some_map {f : α → Option β} {g : α → β} {xs : List α}
    (h : ∀ x ∈ xs, f x = some (g x)) : xs.mapM f = some (xs.map g) := by
  induction xs with
  | nil => rfl
  | cons x xs ih =>
    rw [List.mapM_cons, h x List.mem_cons_self, ih fun y hy => h y (List.mem_cons_of_mem x hy)]
    rfl

/-- A loop over the places of a list collects a result for each element. -/
theorem mapM_range_eq_some_map {f : Nat → Option β} {g : α → β} {xs : List α}
    (h : ∀ i x, xs[i]? = some x → f i = some (g x)) :
    (List.range xs.length).mapM f = some (xs.map g) := by
  induction xs generalizing f with
  | nil => rfl
  | cons x xs ih =>
    have hrest : (List.range xs.length).mapM (f ∘ Nat.succ) = some (xs.map g) :=
      ih fun i y hy => h (i + 1) y hy
    rw [List.length_cons, List.range_succ_eq_map, List.mapM_cons, h 0 x rfl, List.mapM_map, hrest]
    rfl

/-- A list compared with what a function makes of its numbered elements. -/
theorem forall₂_zipIdx_iff {R : α → β → Prop} {f : α × Nat → β} {Q : α → Prop} {xs : List α}
    (h : ∀ a ∈ xs, ∀ n, R a (f (a, n)) ↔ Q a) (k : Nat) :
    List.Forall₂ R xs ((xs.zipIdx k).map f) ↔ ∀ a ∈ xs, Q a := by
  induction xs generalizing k with
  | nil => simp
  | cons x xs ih =>
    rw [List.zipIdx_cons, List.map_cons, List.forall₂_cons, h x List.mem_cons_self,
      ih fun a ha => h a (List.mem_cons_of_mem x ha), List.forall_mem_cons]

end Records

end OpsScripts
