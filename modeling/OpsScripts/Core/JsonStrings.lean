import OpsScripts.Core.JsonRoundTrip

/-!
# The strings that are read from a text

A quotation mark or a backslash inside a string costs a backslash of the text, so a value has at
most as many of them as its text has backslashes. A part of a line without quotation marks is read
up to the quotation mark behind it or not at all; what is read is shorter, or it is the part itself
and nothing in it was escaped.
-/

namespace OpsScripts.Json

/-! ## What a character takes from the text -/

/-- Part of an escape sequence: it has no quotation mark, or is nothing else. -/
def EscapeText (pre : Text) : Prop := pre ≠ [] ∧ ('"' ∈ pre → pre = ['"'])

theorem readHex4_split {t rest : Text} {n : Nat} (h : readHex4 t = some (n, rest)) :
    ∃ pre, t = pre ++ rest ∧ pre ≠ [] ∧ '"' ∉ pre := by
  have hdigit : ∀ {x : Char} {k : Nat}, hexValue x = some k → x ≠ '"' := by
    rintro x k hx rfl
    have hnone : hexValue '"' = none := by decide
    rw [hnone] at hx
    cases hx
  match t with
  | x :: y :: z :: w :: t =>
    simp only [readHex4, Option.bind_eq_bind, Option.bind_eq_some_iff, Option.some.injEq,
      Prod.mk.injEq] at h
    obtain ⟨a, hx, b, hy, c, hz, d, hw, -, rfl⟩ := h
    refine ⟨[x, y, z, w], rfl, List.cons_ne_nil x _, ?_⟩
    simp [(hdigit hx).symm, (hdigit hy).symm, (hdigit hz).symm, (hdigit hw).symm]
  | [] | [_] | [_, _] | [_, _, _] => cases h

theorem readLow_split {t rest : Text} {high : Nat} {c : Char}
    (h : readLow high t = some (c, rest)) : ∃ pre, t = pre ++ rest ∧ '"' ∉ pre := by
  unfold readLow at h
  split at h
  · simp only [Option.bind_eq_bind, Option.bind_eq_some_iff] at h
    obtain ⟨⟨low, rest'⟩, hlow, h⟩ := h
    split_ifs at h
    obtain ⟨-, rfl⟩ := Prod.mk.inj (Option.some.inj h)
    obtain ⟨pre, rfl, -, hpre⟩ := readHex4_split hlow
    refine ⟨'\\' :: 'u' :: pre, rfl, ?_⟩
    simpa using hpre
  · cases h

theorem readUnit_split {t rest : Text} {c : Char} (h : readUnit t = some (c, rest)) :
    ∃ pre, t = pre ++ rest ∧ '"' ∉ pre := by
  simp only [readUnit, Option.bind_eq_bind, Option.bind_eq_some_iff] at h
  obtain ⟨⟨n, t'⟩, hhex, h⟩ := h
  obtain ⟨pre, rfl, -, hpre⟩ := readHex4_split hhex
  split_ifs at h
  · obtain ⟨pre', rfl, hpre'⟩ := readLow_split h
    refine ⟨pre ++ pre', (List.append_assoc _ _ _).symm, ?_⟩
    rw [List.mem_append]
    exact not_or.mpr ⟨hpre, hpre'⟩
  · obtain ⟨-, rfl⟩ := Prod.mk.inj (Option.some.inj h)
    exact ⟨pre, rfl, hpre⟩

theorem readEscape_split {t rest : Text} {c : Char} (h : readEscape t = some (c, rest)) :
    ∃ pre, t = pre ++ rest ∧ EscapeText pre := by
  unfold readEscape at h
  split at h
  · cases h
  · obtain ⟨pre, rfl, hpre⟩ := readUnit_split h
    refine ⟨'u' :: pre, rfl, List.cons_ne_nil _ _, fun hmem => ?_⟩
    rcases List.mem_cons.mp hmem with hu | hmem
    · cases hu
    · exact absurd hmem hpre
  · next x t _ =>
    have hrest : t = rest := by
      split_ifs at h <;> exact (Prod.mk.inj (Option.some.inj h)).2
    refine ⟨[x], by rw [hrest]; rfl, List.cons_ne_nil x _, fun hmem => ?_⟩
    rw [List.mem_singleton.mp hmem]

/-- A character is taken as it is, or it is escaped. -/
theorem readChar_split {t rest : Text} {c : Char} (h : readChar t = some (c, rest)) :
    (t = c :: rest ∧ c ≠ '\\' ∧ 32 ≤ c.toNat) ∨
      ∃ pre, t = '\\' :: (pre ++ rest) ∧ EscapeText pre := by
  unfold readChar at h
  split at h
  · cases h
  · split_ifs at h with hback hcontrol
    · obtain ⟨pre, rfl, hpre⟩ := readEscape_split h
      rw [hback]
      exact Or.inr ⟨pre, rfl, hpre⟩
    · obtain ⟨rfl, rfl⟩ := Prod.mk.inj (Option.some.inj h)
      exact Or.inl ⟨rfl, hback, Nat.le_of_not_lt hcontrol⟩

/-! ## Quotation marks and backslashes -/

/-- The characters that have to be escaped wherever they stand in a string. -/
def isMark (c : Char) : Bool := c == '"' || c == '\\'

theorem countP_isMark (t : Text) : t.countP isMark = t.count '"' + t.count '\\' := by
  induction t with
  | nil => rfl
  | cons c t ih =>
    rw [List.countP_cons, List.count_cons, List.count_cons, ih]
    by_cases hquote : c = '"'
    · subst hquote
      simp [isMark]
      omega
    · by_cases hback : c = '\\'
      · subst hback
        simp [isMark]
        omega
      · simp [isMark, hquote, hback]

theorem readString_marks {n : Nat} {t s rest : Text} (h : readString n t = some (s, rest)) :
    s.countP isMark + rest.count '\\' ≤ t.count '\\' := by
  induction n generalizing t s with
  | zero => cases h
  | succ n ih =>
    rw [readString] at h
    split_ifs at h with hquote
    · obtain ⟨rfl, rfl⟩ := Prod.mk.inj (Option.some.inj h)
      rw [List.countP_nil, Nat.zero_add]
      exact (List.tail_sublist t).count_le '\\'
    · simp only [Option.bind_eq_bind, Option.bind_eq_some_iff, Option.some.injEq,
        Prod.mk.injEq] at h
      obtain ⟨⟨c, t'⟩, hc, ⟨s', rest'⟩, hs, rfl, rfl⟩ := h
      have hle : s'.countP isMark + rest'.count '\\' ≤ t'.count '\\' := ih hs
      change (c :: s').countP isMark + rest'.count '\\' ≤ t.count '\\'
      rw [List.countP_cons]
      rcases readChar_split hc with ⟨rfl, hback, -⟩ | ⟨pre, rfl, -⟩
      · have hmark : isMark c = false := by
          have hne : c ≠ '"' := fun hc => hquote (by rw [hc]; rfl)
          simp [isMark, hne, hback]
        rw [List.count_cons_of_ne hback, hmark]
        simpa using hle
      · rw [List.count_cons_self, List.count_append]
        split_ifs <;> omega

mutual

/-- The strings among the values; keys do not count. -/
def strings : Json → List Text
  | lit _ => []
  | num _ => []
  | neg _ => []
  | str t => [t]
  | arr vs => stringsItems vs
  | obj ms => stringsMembers ms

/-- The strings among the items of an array. -/
def stringsItems : List Json → List Text
  | [] => []
  | v :: vs => strings v ++ stringsItems vs

/-- The strings among the values of an object. -/
def stringsMembers : List (Text × Json) → List Text
  | [] => []
  | (_, v) :: ms => strings v ++ stringsMembers ms

end

/-- The quotation marks and backslashes of some strings. -/
def marks (ts : List Text) : Nat := ts.flatten.countP isMark

@[simp] theorem marks_append (ts us : List Text) : marks (ts ++ us) = marks ts + marks us := by
  rw [marks, List.flatten_append, List.countP_append, marks, marks]

/-- A later member replaces an earlier one. -/
theorem marks_members_le (ms : List (Text × Json)) :
    marks (stringsMembers (members ms)) ≤ marks (stringsMembers ms) := by
  have hassign : ∀ (k : Text) (v : Json) (ms : List (Text × Json)),
      marks (stringsMembers (assign k v ms)) ≤ marks (strings v) + marks (stringsMembers ms) := by
    intro k v ms
    induction ms with
    | nil => simp [assign, stringsMembers]
    | cons m ms ih =>
      rw [assign]
      split_ifs
      · simp only [stringsMembers, marks_append]
        omega
      · simp only [stringsMembers, marks_append]
        omega
  have hfold : ∀ done : List (Text × Json),
      marks (stringsMembers (ms.foldl (fun ms m => assign m.1 m.2 ms) done)) ≤
        marks (stringsMembers done) + marks (stringsMembers ms) := by
    induction ms with
    | nil => exact fun done => Nat.le_add_right _ _
    | cons m ms ih =>
      intro done
      have hrest := ih (assign m.1 m.2 done)
      have hfirst := hassign m.1 m.2 done
      rw [List.foldl_cons]
      simp only [stringsMembers, marks_append]
      omega
  have hnone : marks (stringsMembers []) = 0 := rfl
  have hle := hfold []
  rwa [hnone, Nat.zero_add] at hle

theorem count_skip_le (t : Text) : (skip t).count '\\' ≤ t.count '\\' :=
  (List.dropWhile_suffix _).sublist.count_le '\\'

theorem count_of_skip_eq {c : Char} {t u : Text} (h : skip t = c :: u) :
    u.count '\\' ≤ t.count '\\' := by
  have hle := count_skip_le t
  rw [h] at hle
  exact ((List.sublist_cons_self c u).count_le '\\').trans hle

theorem suffix_of_readLiteral {t rest : Text} {l : Literal} (h : readLiteral t = some (l, rest)) :
    rest <:+ t := by
  obtain ⟨l', -, hl⟩ := Option.map_eq_some_iff.mp h
  obtain ⟨-, rfl⟩ := Prod.mk.inj hl
  exact List.drop_suffix _ t

/-- A value costs a backslash of its text for each quotation mark and backslash in it. -/
def ValueCosts (n : Nat) : Prop := ∀ t v rest, readValue n t = some (v, rest) →
  marks (strings v) + rest.count '\\' ≤ t.count '\\'

/-- So do the items of an array. -/
def ItemsCost (n : Nat) : Prop := ∀ t vs rest, readItems n t = some (vs, rest) →
  marks (stringsItems vs) + rest.count '\\' ≤ t.count '\\'

/-- So do the members of an object. -/
def MembersCost (n : Nat) : Prop := ∀ t ms rest, readMembers n t = some (ms, rest) →
  marks (stringsMembers ms) + rest.count '\\' ≤ t.count '\\'

theorem valueCosts_succ {n : Nat} (hitems : ItemsCost n) (hmembers : MembersCost n) :
    ValueCosts (n + 1) := by
  intro t v rest h
  cases t with
  | nil =>
    rw [readValue] at h
    · cases h
    · exact Nat.succ_ne_zero n
  | cons c t =>
    have hcons : t.count '\\' ≤ (c :: t).count '\\' :=
      (List.sublist_cons_self c t).count_le '\\'
    -- an empty array or object: nothing but white space and the bracket is read
    have hempty : ((skip t).tail).count '\\' ≤ (c :: t).count '\\' :=
      (((List.tail_sublist (skip t)).count_le '\\').trans (count_skip_le t)).trans hcons
    have hnone : marks [] = 0 := rfl
    rw [readValue] at h
    split_ifs at h with hquote hbracket hclose hbrace hclose hdigit hminus
    · simp only [Option.bind_eq_bind, Option.bind_eq_some_iff, Option.some.injEq,
        Prod.mk.injEq] at h
      obtain ⟨⟨s, rest'⟩, hs, rfl, rfl⟩ := h
      rw [strings, marks, List.flatten_singleton]
      exact (readString_marks hs).trans hcons
    · obtain ⟨rfl, rfl⟩ := Prod.mk.inj (Option.some.inj h)
      rw [strings, stringsItems, hnone, Nat.zero_add]
      exact hempty
    · simp only [Option.bind_eq_bind, Option.bind_eq_some_iff, Option.some.injEq,
        Prod.mk.injEq] at h
      obtain ⟨⟨vs, rest'⟩, hvs, rfl, rfl⟩ := h
      exact (hitems _ _ _ hvs).trans hcons
    · obtain ⟨rfl, rfl⟩ := Prod.mk.inj (Option.some.inj h)
      rw [strings, stringsMembers, hnone, Nat.zero_add]
      exact hempty
    · simp only [Option.bind_eq_bind, Option.bind_eq_some_iff, Option.some.injEq,
        Prod.mk.injEq] at h
      obtain ⟨⟨ms, rest'⟩, hms, rfl, rfl⟩ := h
      rw [strings]
      exact (Nat.add_le_add_right (marks_members_le ms) _).trans
        ((hmembers _ _ _ hms).trans hcons)
    · obtain ⟨rfl, rfl⟩ := Prod.mk.inj (Option.some.inj h)
      rw [strings, hnone, Nat.zero_add]
      exact (List.dropWhile_suffix _).sublist.count_le '\\'
    · obtain ⟨rfl, rfl⟩ := Prod.mk.inj (Option.some.inj h)
      have hnegative : ∀ k, strings (ofNegative k) = [] := fun k => by cases k <;> rfl
      rw [hnegative, hnone, Nat.zero_add]
      exact ((List.dropWhile_suffix _).sublist.count_le '\\').trans hcons
    · obtain ⟨⟨l, rest'⟩, hl, hv⟩ := Option.map_eq_some_iff.mp h
      obtain ⟨rfl, rfl⟩ := Prod.mk.inj hv
      rw [strings, hnone, Nat.zero_add]
      exact (suffix_of_readLiteral hl).sublist.count_le '\\'

theorem itemsCost_succ {n : Nat} (hvalue : ValueCosts n) (hitems : ItemsCost n) :
    ItemsCost (n + 1) := by
  intro t vs rest h
  rw [readItems] at h
  simp only [Option.bind_eq_bind, Option.bind_eq_some_iff] at h
  obtain ⟨⟨v, t'⟩, hv, h⟩ := h
  have hfirst := (hvalue _ _ _ hv).trans (count_skip_le t)
  dsimp only at h
  split at h
  · next u hu =>
    simp only [Option.bind_eq_some_iff, Option.some.injEq, Prod.mk.injEq] at h
    obtain ⟨⟨vs', rest'⟩, hvs, rfl, rfl⟩ := h
    have hrest := (hitems _ _ _ hvs).trans (count_of_skip_eq hu)
    rw [stringsItems, marks_append]
    dsimp only
    omega
  · next u hu =>
    obtain ⟨rfl, rfl⟩ := Prod.mk.inj (Option.some.inj h)
    have hrest := count_of_skip_eq hu
    rw [stringsItems, stringsItems, List.append_nil]
    omega
  · cases h

theorem membersCost_succ {n : Nat} (hvalue : ValueCosts n) (hmembers : MembersCost n) :
    MembersCost (n + 1) := by
  intro t ms rest h
  rw [readMembers] at h
  split at h
  · next u hu =>
    have hstart := count_of_skip_eq hu
    simp only [Option.bind_eq_bind, Option.bind_eq_some_iff] at h
    obtain ⟨⟨k, t'⟩, hk, h⟩ := h
    have hkey := readString_marks hk
    dsimp only at h
    split at h
    · next w hw =>
      have hcolon := count_of_skip_eq hw
      simp only [Option.bind_eq_some_iff] at h
      obtain ⟨⟨v, t''⟩, hv, h⟩ := h
      have hfirst := (hvalue _ _ _ hv).trans (count_skip_le w)
      dsimp only at h
      split at h
      · next x hx =>
        simp only [Option.bind_eq_some_iff, Option.some.injEq, Prod.mk.injEq] at h
        obtain ⟨⟨ms', rest'⟩, hms, rfl, rfl⟩ := h
        have hrest := (hmembers _ _ _ hms).trans (count_of_skip_eq hx)
        rw [stringsMembers, marks_append]
        dsimp only
        omega
      · next x hx =>
        obtain ⟨rfl, rfl⟩ := Prod.mk.inj (Option.some.inj h)
        have hrest := count_of_skip_eq hx
        rw [stringsMembers, stringsMembers, List.append_nil]
        omega
      · cases h
    · cases h
  · cases h

theorem costs (n : Nat) : ValueCosts n ∧ ItemsCost n ∧ MembersCost n := by
  induction n with
  | zero =>
    refine ⟨fun t v rest h => ?_, fun t vs rest h => ?_, fun t ms rest h => ?_⟩
    · rw [readValue] at h
      cases h
    · rw [readItems] at h
      cases h
    · rw [readMembers] at h
      cases h
  | succ n ih =>
    obtain ⟨hvalue, hitems, hmembers⟩ := ih
    exact ⟨valueCosts_succ hitems hmembers, itemsCost_succ hvalue hitems,
      membersCost_succ hvalue hmembers⟩

/-- A text has at least as many backslashes as its value has quotation marks and backslashes. -/
theorem loads_marks {t : Text} {v : Json} (h : loads t = some v) :
    marks (strings v) ≤ t.count '\\' := by
  simp only [loads, Option.bind_eq_bind, Option.bind_eq_some_iff] at h
  obtain ⟨⟨v', rest⟩, hv, h⟩ := h
  split_ifs at h
  obtain rfl : v' = v := Option.some.inj h
  exact (Nat.le_add_right _ _).trans (((costs _).1 _ _ _ hv).trans (count_skip_le t))

/-! ## A part of a line -/

/-- A text that is written into a string as it is. -/
def Plain (t : Text) : Prop := ∀ c ∈ t, isMark c = false ∧ 32 ≤ c.toNat

theorem readString_plain {n : Nat} {t : Text} (h : Plain t) (hn : t.length < n) (rest : Text) :
    readString n (t ++ '"' :: rest) = some (t, rest) := by
  induction n generalizing t with
  | zero => exact absurd hn (Nat.not_lt_zero _)
  | succ n ih =>
    cases t with
    | nil => rfl
    | cons c t =>
      obtain ⟨⟨hmark, hcontrol⟩, ht⟩ := List.forall_mem_cons.mp h
      simp only [isMark, Bool.or_eq_false_iff, beq_eq_false_iff_ne] at hmark
      have hhead : (c :: (t ++ '"' :: rest)).head? ≠ some '"' :=
        fun hc => hmark.1 (Option.some.inj hc)
      have hchar : readChar (c :: (t ++ '"' :: rest)) = some (c, t ++ '"' :: rest) := by
        rw [readChar, if_neg hmark.2, if_neg (Nat.not_lt_of_le hcontrol)]
      rw [List.cons_append, readString, if_neg hhead, hchar]
      simp only [Option.bind_eq_bind, Option.bind_some, ih ht (Nat.lt_of_succ_lt_succ hn)]

/-- How an object goes on behind the value of a member. -/
def behindMember (n : Nat) (k : Text) (r : Json × Text) : Option (List (Text × Json) × Text) :=
  match skip r.2 with
  | ',' :: t => (readMembers n t).bind fun q => some ((k, r.1) :: q.1, q.2)
  | '\x7d' :: rest => some ([(k, r.1)], rest)
  | _ => none

/-- A member with a plain key, in front of the rest of the object. -/
theorem readMembers_key {k u x : Text} (hk : Plain k) (hu : skip u = '"' :: (k ++ '"' :: ':' :: x))
    (n : Nat) : readMembers (n + 1) u = (readValue n (skip x)).bind (behindMember n k) := by
  have hcolon : skip (':' :: x) = ':' :: x := rfl
  have hlength : k.length < (k ++ '"' :: ':' :: x).length := by
    rw [List.length_append, List.length_cons]
    omega
  rw [readMembers, hu]
  simp only [readString_plain hk hlength, Option.bind_eq_bind, Option.bind_some, hcolon]
  rfl

/-- A line break inside a string is an error. -/
theorem readString_break {n : Nat} {w : Text} (h : ∀ c ∈ w, isMark c = false) (rest : Text) :
    readString n (w ++ '\n' :: rest) = none := by
  induction n generalizing w with
  | zero => rfl
  | succ n ih =>
    cases w with
    | nil => rfl
    | cons c w =>
      obtain ⟨hmark, hw⟩ := List.forall_mem_cons.mp h
      simp only [isMark, Bool.or_eq_false_iff, beq_eq_false_iff_ne] at hmark
      have hhead : (c :: (w ++ '\n' :: rest)).head? ≠ some '"' :=
        fun hc => hmark.1 (Option.some.inj hc)
      rw [List.cons_append, readString, if_neg hhead, readChar, if_neg hmark.2]
      split_ifs
      · rfl
      · simp only [Option.bind_eq_bind, Option.bind_some, ih hw, Option.bind_none]

/-- What is read of a part of a line: a shorter text, or the part as it is. -/
def ReadAs (t s : Text) : Prop := s.length ≤ t.length ∧ (t.length ≤ s.length → s = t ∧ Plain t)

theorem readAs_cons {t s : Text} {c : Char} (h : ReadAs t s) (hc : c ≠ '"' ∧ c ≠ '\\')
    (hcontrol : 32 ≤ c.toNat) : ReadAs (c :: t) (c :: s) := by
  refine ⟨Nat.succ_le_succ h.1, fun hle => ?_⟩
  obtain ⟨rfl, hplain⟩ := h.2 (Nat.le_of_succ_le_succ hle)
  refine ⟨rfl, List.forall_mem_cons.mpr ⟨⟨?_, hcontrol⟩, hplain⟩⟩
  simp [isMark, hc.1, hc.2]

/-- What is read behind an escape sequence is too short. -/
theorem readAs_escape {t s pre : Text} (h : ReadAs t s) (hpre : pre ≠ []) (x : Char) :
    ReadAs ('\\' :: (pre ++ t)) (x :: s) := by
  have hpos := List.length_pos_iff.mpr hpre
  have hle := h.1
  constructor
  · rw [List.length_cons, List.length_cons, List.length_append]
    omega
  · intro hge
    rw [List.length_cons, List.length_cons, List.length_append] at hge
    omega

/-- A string ends at the quotation mark behind the part, or nothing is read. -/
theorem readString_line {n : Nat} {t w s rest tail : Text} (ht : '"' ∉ t)
    (hw : ∀ c ∈ w, isMark c = false)
    (h : readString n (t ++ '"' :: (w ++ '\n' :: tail)) = some (s, rest)) :
    rest = w ++ '\n' :: tail ∧ ReadAs t s := by
  induction n generalizing t s with
  | zero => cases h
  | succ n ih =>
    cases t with
    | nil =>
      obtain ⟨rfl, rfl⟩ := Prod.mk.inj (Option.some.inj h)
      exact ⟨rfl, le_rfl, fun _ => ⟨rfl, fun c hc => nomatch hc⟩⟩
    | cons c t =>
      rw [List.mem_cons, not_or] at ht
      have hhead : (c :: (t ++ '"' :: (w ++ '\n' :: tail))).head? ≠ some '"' :=
        fun hc => ht.1 (Option.some.inj hc).symm
      rw [List.cons_append, readString, if_neg hhead] at h
      simp only [Option.bind_eq_bind, Option.bind_eq_some_iff, Option.some.injEq,
        Prod.mk.injEq] at h
      obtain ⟨⟨x, t'⟩, hx, ⟨s', rest'⟩, hs, rfl, rfl⟩ := h
      rcases readChar_split hx with ⟨heq, hback, hcontrol⟩ | ⟨pre, heq, hne, hpre⟩
      · obtain ⟨rfl, rfl⟩ := List.cons.inj heq
        obtain ⟨hrest, hread⟩ := ih ht.2 hs
        exact ⟨hrest, readAs_cons hread ⟨Ne.symm ht.1, hback⟩ hcontrol⟩
      · -- an escape sequence lies inside the part, or it takes the quotation mark behind it
        obtain ⟨rfl, htext⟩ := List.cons.inj heq
        have hinside : ∀ u, t = pre ++ u → t' = u ++ '"' :: (w ++ '\n' :: tail) →
            rest' = w ++ '\n' :: tail ∧ ReadAs ('\\' :: t) (x :: s') := by
          rintro u rfl rfl
          obtain ⟨hrest, hread⟩ := ih (fun hu => ht.2 (List.mem_append_right _ hu)) hs
          exact ⟨hrest, readAs_escape hread hne x⟩
        rcases List.append_eq_append_iff.mp htext with ⟨a, rfl, ha⟩ | ⟨u, hu, ht'⟩
        · cases a with
          | nil => exact hinside [] (by simp) ha.symm
          | cons y a =>
            obtain ⟨rfl, htail⟩ := List.cons.inj ha
            have hquote := hpre (List.mem_append_right _ List.mem_cons_self)
            have hlength := congrArg List.length hquote
            simp only [List.length_append, List.length_cons, List.length_nil] at hlength
            have hempty : a = [] := List.length_eq_zero_iff.mp (by omega)
            have hrest : t' = w ++ '\n' :: tail := by rw [htail, hempty]; rfl
            dsimp only at hs
            rw [hrest, readString_break hw] at hs
            cases hs
        · exact hinside u hu ht'

/-- The strings of a value are among those of the object. -/
theorem strings_sublist_of_get {k : Text} {v w : Json} (h : v.get k = some w) :
    (strings w).Sublist (strings v) := by
  cases v with
  | obj ms =>
    obtain ⟨m, hm, rfl⟩ := Option.map_eq_some_iff.mp h
    have hmem := List.mem_of_find?_eq_some hm
    rw [strings]
    clear h hm
    induction ms with
    | nil => cases hmem
    | cons m' ms ih =>
      rw [stringsMembers]
      rcases List.mem_cons.mp hmem with rfl | hmem
      · exact List.sublist_append_left _ _
      · exact (ih hmem).trans (List.sublist_append_right _ _)
  | lit | num | neg | str | arr => cases h

/-- An object with one member, whose value is the rest of its line up to a quotation mark. -/
theorem exists_of_readValue_line {n : Nat} {k t w x y z rest behind out : Text} {v : Json}
    (hk : Plain k) (ht : '"' ∉ t) (hw : ∀ c ∈ w, isMark c = false)
    (hx : skip x = '"' :: (k ++ '"' :: y)) (hy : skip y = ':' :: z)
    (hz : skip z = '"' :: (t ++ '"' :: (w ++ '\n' :: rest)))
    (hbehind : skip (w ++ '\n' :: rest) = '\x7d' :: behind)
    (h : readValue n ('\x7b' :: x) = some (v, out)) :
    ∃ s, ReadAs t s ∧ v = obj [(k, str s)] ∧ out = behind := by
  have hbrace : (skip x).head? ≠ some '\x7d' := by
    rw [hx]
    change some '"' ≠ some '\x7d'
    decide
  cases n with
  | zero => cases h
  | succ n =>
    rw [readValue_brace hbrace] at h
    obtain ⟨⟨ms, out'⟩, hms, heq⟩ := Option.map_eq_some_iff.mp h
    obtain ⟨rfl, rfl⟩ := Prod.mk.inj heq
    cases n with
    | zero => cases hms
    | succ n =>
      have hkey : k.length < (k ++ '"' :: y).length := by
        rw [List.length_append, List.length_cons]
        omega
      rw [readMembers, hx] at hms
      simp only [readString_plain hk hkey, hy, hz, Option.bind_eq_bind, Option.bind_some] at hms
      cases n with
      | zero => cases hms
      | succ n =>
        rw [readValue, if_pos rfl] at hms
        cases hs : readString (t ++ '"' :: (w ++ '\n' :: rest)).length
            (t ++ '"' :: (w ++ '\n' :: rest)) with
        | none =>
          rw [hs] at hms
          cases hms
        | some r =>
          obtain ⟨s, behind'⟩ := r
          obtain ⟨rfl, hread⟩ := readString_line ht hw hs
          rw [hs] at hms
          simp only [Option.bind_eq_bind, Option.bind_some, hbehind] at hms
          obtain ⟨rfl, rfl⟩ := Prod.mk.inj (Option.some.inj hms)
          exact ⟨s, hread, rfl, rfl⟩

end OpsScripts.Json
