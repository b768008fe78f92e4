import Mathlib.Data.Nat.Find
import OpsScripts.Core.Wildcard

/-!
# A name that no user has

`SName` appends underscores to a requested name until no user is found. It searches with
`-like`, so the requested name is taken for a pattern: the search agrees with equality
for names without wildcards, and in general the loop stops at the first number of
underscores that the pattern test passes, which need not be the first free one.
-/

namespace OpsScripts.AddUser

section Names

variable [Culture]

/-! ## The function -/

/-- `[bool](Get-ADUser -Properties * -filter * |where {$_.Name -like "$userNameUnic"})`. A
pattern that is not valid is an error for each user: inside a `try` it leaves the
function, elsewhere the user is passed over. -/
def findUser (inTry : Bool) (names : List Text) (userNameUnic : Text) : Option Bool :=
  if inTry && (Wildcard.parse userNameUnic).isNone && !names.isEmpty then none
  else some (names.any fun name => like name userNameUnic)

/-- How far a call has come. -/
inductive Answer where
  | running
  | raised
  | returned (userNameUnic : Text)
  deriving DecidableEq

/-- `SName`, up to a number of passes of its loop. -/
def SName (inTry : Bool) (names : List Text) : Nat → Text → Answer
  | 0, _ => .running
  | n + 1, userNameUnic =>
    match findUser inTry names userNameUnic with
    | none => .raised
    | some true => SName inTry names n (userNameUnic ++ ['_'])
    | some false => .returned userNameUnic

/-! ## The wanted name -/

/-- A name with underscores behind it. -/
def underscored (name : Text) (k : Nat) : Text := name ++ List.replicate k '_'

/-- A user has the name. -/
def taken (names : List Text) (name : Text) : Bool := names.any fun other => eqIgnoreCase other name

/-- The number of underscores is the least one for which the name is free. -/
def LeastFree (names : List Text) (name : Text) (k : Nat) : Prop :=
  taken names (underscored name k) = false ∧ ∀ j < k, taken names (underscored name j) = true

/-- The loop ends with the least number of underscores for which the name is free. -/
def NameUnique (inTry : Bool) (names : List Text) (name : Text) : Prop :=
  ∃ n k, LeastFree names name k ∧ SName inTry names n name = .returned (underscored name k)

/-! ## Underscores -/

omit [Culture] in
theorem underscored_succ (name : Text) (k : Nat) :
    underscored name k ++ ['_'] = underscored name (k + 1) := by
  rw [underscored, underscored, List.append_assoc, ← List.replicate_succ']

omit [Culture] in
theorem underscored_injective (name : Text) : Function.Injective (underscored name) := by
  intro j k h
  have hlength := congrArg List.length h
  simp only [underscored, List.length_append, List.length_replicate] at hlength
  omega

omit [Culture] in
theorem isSome_parse_underscored (name : Text) (k : Nat) :
    (Wildcard.parse (underscored name k)).isSome = (Wildcard.parse name).isSome := by
  induction k with
  | zero => rw [underscored, List.replicate_zero, List.append_nil]
  | succ k ih => rw [← underscored_succ, Wildcard.isSome_parse_append rfl (by decide), ih]

/-- A number of underscores above the lengths of all names. -/
def enough (names : List Text) : Nat := names.foldr (fun other n => other.length + n) 1

omit [Culture] in
theorem length_lt_enough {names : List Text} {other : Text} (h : other ∈ names) :
    other.length < enough names := by
  have hpos : ∀ others : List Text, 0 < enough others := by
    intro others
    induction others with
    | nil => exact Nat.one_pos
    | cons _ _ ih => exact Nat.add_pos_right _ ih
  induction names with
  | nil => cases h
  | cons name names ih =>
    rw [enough, List.foldr_cons]
    rcases List.mem_cons.mp h with rfl | h
    · exact Nat.lt_add_of_pos_right (hpos names)
    · exact (ih h).trans_le (Nat.le_add_left _ _)

/-- With so many underscores no name is equal, and none matches. -/
theorem taken_enough (names : List Text) (name : Text) :
    taken names (underscored name (enough names)) = false := by
  rw [taken, List.any_eq_false]
  intro other hother heq
  have hlength := congrArg List.length (eqIgnoreCase_iff.mp heq)
  have hlt := length_lt_enough hother
  simp only [toLower, underscored, List.length_map, List.length_append, List.length_replicate]
    at hlength
  omega

theorem not_any_like_enough (names : List Text) (name : Text) :
    names.any (fun other => like other (underscored name (enough names))) = false := by
  rw [List.any_eq_false]
  intro other hother
  rw [underscored, Wildcard.not_like_of_length_lt rfl (by decide) (length_lt_enough hother)]
  exact Bool.false_ne_true

omit [Culture] in
/-- There is a first number for which a test fails. -/
theorem exists_least {p : Nat → Bool} {m : Nat} (h : p m = false) :
    ∃ k, p k = false ∧ ∀ j < k, p j = true := by
  have hfails : ∃ k, p k = false := ⟨m, h⟩
  refine ⟨Nat.find hfails, Nat.find_spec hfails, fun j hj => ?_⟩
  rw [← Bool.not_eq_false]
  exact Nat.find_min hfails hj

theorem exists_leastFree (names : List Text) (name : Text) : ∃ k, LeastFree names name k :=
  exists_least (p := fun k => taken names (underscored name k)) (taken_enough names name)

/-! ## Runs of the loop -/

variable {inTry : Bool} {names : List Text} {name : Text}

/-- Inside a `try` there is no invalid pattern to be tried. -/
def NoError (inTry : Bool) (names : List Text) (name : Text) : Prop :=
  inTry = true → names ≠ [] → (Wildcard.parse name).isSome

/-- Without an error the search is the pattern test, for any number of underscores. -/
theorem findUser_underscored (h : NoError inTry names name) (k : Nat) :
    findUser inTry names (underscored name k) =
      some (names.any fun other => like other (underscored name k)) := by
  rw [findUser, if_neg]
  intro hraise
  simp only [Bool.and_eq_true, Bool.not_eq_true', List.isEmpty_eq_false_iff] at hraise
  have hsome := h hraise.1.1 hraise.2
  rw [← isSome_parse_underscored name k, ← Option.not_isNone, hraise.1.2] at hsome
  cases hsome

theorem findUser_eq_none (h : ¬NoError inTry names name) : findUser inTry names name = none := by
  rw [findUser, if_pos]
  simp only [NoError, Classical.not_imp] at h
  simp only [Bool.and_eq_true, Bool.not_eq_true', List.isEmpty_eq_false_iff]
  refine ⟨⟨h.1, ?_⟩, h.2.1⟩
  rw [← Option.not_isSome, Bool.not_eq_true', ← Bool.not_eq_true]
  exact h.2.2

/-- The loop passes the underscores for which a user is found. -/
theorem SName_underscored {k : Nat}
    (h : ∀ j < k, findUser inTry names (underscored name j) = some true) (n : Nat) :
    SName inTry names (k + n) name = SName inTry names n (underscored name k) := by
  induction k generalizing n with
  | zero => rw [Nat.zero_add, underscored, List.replicate_zero, List.append_nil]
  | succ k ih =>
    have hshift : k + 1 + n = k + (n + 1) := by omega
    rw [hshift, ih (fun j hj => h j (Nat.lt_succ_of_lt hj)), SName, h k (Nat.lt_succ_self k)]
    exact congrArg (SName inTry names n) (underscored_succ name k)

/-- It ends where none is found. -/
theorem SName_eq_returned {k : Nat}
    (hbefore : ∀ j < k, findUser inTry names (underscored name j) = some true)
    (hend : findUser inTry names (underscored name k) = some false) :
    SName inTry names (k + 1) name = .returned (underscored name k) := by
  rw [SName_underscored hbefore, SName, hend]

/-- What was found before a name is returned. -/
theorem findUser_of_SName {n k : Nat} {result : Text}
    (h : SName inTry names n (underscored name k) = .returned result) :
    ∃ m, result = underscored name m ∧ findUser inTry names (underscored name m) = some false ∧
      ∀ j, k ≤ j → j < m → findUser inTry names (underscored name j) = some true := by
  induction n generalizing k with
  | zero => cases h
  | succ n ih =>
    rw [SName] at h
    cases hfind : findUser inTry names (underscored name k) with
    | none =>
      rw [hfind] at h
      cases h
    | some found =>
      rw [hfind] at h
      cases found with
      | false =>
        refine ⟨k, (Answer.returned.inj h).symm, hfind, fun j hj hlt => ?_⟩
        exact absurd hlt (Nat.not_lt.mpr hj)
      | true =>
        dsimp only at h
        rw [underscored_succ] at h
        obtain ⟨m, hresult, hend, hbefore⟩ := ih h
        refine ⟨m, hresult, hend, fun j hj hlt => ?_⟩
        rcases Nat.eq_or_lt_of_le hj with rfl | hj
        · exact hfind
        · exact hbefore j hj hlt

/-- Without an error so many passes of the loop are enough. -/
theorem exists_SName_eq_returned (h : NoError inTry names name) :
    ∃ k, SName inTry names (enough names + 1) name = .returned (underscored name k) ∧
      names.any (fun other => like other (underscored name k)) = false ∧
      ∀ j < k, names.any (fun other => like other (underscored name j)) = true := by
  have hlast := not_any_like_enough names name
  obtain ⟨k, hend, hbefore⟩ := exists_least
    (p := fun k => names.any fun other => like other (underscored name k)) hlast
  have hle : k ≤ enough names := by
    by_contra hlt
    rw [hbefore (enough names) (Nat.lt_of_not_le hlt)] at hlast
    cases hlast
  refine ⟨k, ?_, hend, hbefore⟩
  have hfuel : enough names + 1 = k + (enough names - k + 1) := by omega
  rw [hfuel, SName_underscored, SName, findUser_underscored h, hend]
  intro j hj
  rw [findUser_underscored h, hbefore j hj]

/-- The loop ends for every name and every list of users. -/
theorem exists_SName_ne_running (inTry : Bool) (names : List Text) (name : Text) :
    ∃ n, SName inTry names n name ≠ .running := by
  by_cases h : NoError inTry names name
  · obtain ⟨k, hreturned, -⟩ := exists_SName_eq_returned h
    refine ⟨enough names + 1, ?_⟩
    rw [hreturned]
    exact Answer.noConfusion
  · refine ⟨1, ?_⟩
    rw [SName, findUser_eq_none h]
    exact Answer.noConfusion

/-! ## When the name is the first free one -/

/-- There is no error, and up to the first free name the pattern test finds a user
exactly when the name is taken. -/
def PatternsExact (inTry : Bool) (names : List Text) (name : Text) : Prop :=
  NoError inTry names name ∧ ∀ k, (∀ j < k, taken names (underscored name j) = true) →
    names.any (fun other => like other (underscored name k)) = taken names (underscored name k)

theorem NameUnique.patternsExact (h : NameUnique inTry names name) :
    PatternsExact inTry names name := by
  obtain ⟨n, k, ⟨hfree, htaken⟩, hrun⟩ := h
  have hzero : underscored name 0 = name := by
    rw [underscored, List.replicate_zero, List.append_nil]
  rw [← hzero] at hrun
  obtain ⟨m, hm, hend, hbefore⟩ := findUser_of_SName hrun
  rw [hzero] at hm
  obtain rfl := underscored_injective name hm
  have hnoError : NoError inTry names name := by
    by_contra hraise
    have hnone := findUser_eq_none hraise
    cases k with
    | zero =>
      rw [hzero, hnone] at hend
      cases hend
    | succ k =>
      have hfirst := hbefore 0 le_rfl (Nat.succ_pos k)
      rw [hzero, hnone] at hfirst
      cases hfirst
  refine ⟨hnoError, fun j hj => ?_⟩
  have hle : j ≤ k := by
    by_contra hlt
    rw [hj k (Nat.lt_of_not_le hlt)] at hfree
    cases hfree
  rcases Nat.eq_or_lt_of_le hle with rfl | hlt
  · rw [findUser_underscored hnoError, Option.some.injEq] at hend
    rw [hend, hfree]
  · have hfound := hbefore j (Nat.zero_le j) hlt
    rw [findUser_underscored hnoError, Option.some.injEq] at hfound
    rw [hfound, htaken j hlt]

theorem PatternsExact.nameUnique (h : PatternsExact inTry names name) :
    NameUnique inTry names name := by
  obtain ⟨k, hfree, htaken⟩ := exists_leastFree names name
  refine ⟨k + 1, k, ⟨hfree, htaken⟩, SName_eq_returned (fun j hj => ?_) ?_⟩
  · rw [findUser_underscored h.1, h.2 j fun i hi => htaken i (hi.trans hj), htaken j hj]
  · rw [findUser_underscored h.1, h.2 k htaken, hfree]

/-- The name is the first free one exactly when the patterns are exact up to there. -/
theorem nameUnique_iff (inTry : Bool) (names : List Text) (name : Text) :
    NameUnique inTry names name ↔ PatternsExact inTry names name :=
  ⟨NameUnique.patternsExact, PatternsExact.nameUnique⟩

omit [Culture] in
/-- A name without wildcards has none with underscores either. -/
theorem plain_underscored {name : Text} (h : ∀ c ∈ name, Wildcard.isSpecial c = false) (k : Nat) :
    ∀ c ∈ underscored name k, Wildcard.isSpecial c = false := by
  intro c hc
  rcases List.mem_append.mp hc with hc | hc
  · exact h c hc
  · rw [List.eq_of_mem_replicate hc]
    rfl

/-- A name without wildcards is an exact pattern. -/
theorem patternsExact_of_plain (inTry : Bool) (names : List Text) {name : Text}
    (h : ∀ c ∈ name, Wildcard.isSpecial c = false) : PatternsExact inTry names name := by
  refine ⟨fun _ _ => ?_, fun k _ => ?_⟩
  · rw [Wildcard.parse_literal h]
    rfl
  · simp only [taken, like_literal (plain_underscored h k)]

end Names

section Example

local instance asciiNames : Culture := Culture.ascii

/-- A free name with a star gets an underscore because another user matches it. -/
theorem star_not_nameUnique : ¬NameUnique false ["Ivanov Petr".toList] "Ivanov*".toList := by
  intro h
  have hmatched : (["Ivanov Petr".toList].any fun other =>
      like other (underscored "Ivanov*".toList 0)) = true := by decide +kernel
  have hfree : taken ["Ivanov Petr".toList] (underscored "Ivanov*".toList 0) = false := by
    decide +kernel
  have hexact := h.patternsExact.2 0 (by rintro j ⟨⟩)
  rw [hmatched, hfree] at hexact
  cases hexact

end Example

end OpsScripts.AddUser
