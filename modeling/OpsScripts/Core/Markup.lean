import Mathlib.Data.List.Infix
import OpsScripts.Core.Text

/-!
# Letters with a meaning

In a markup some letters are active, and a backslash in front of an escapable letter takes its
meaning away. A text whose active letters were escaped is plain again, but a reader may take a
backslash of the text itself for one of the markup. That is the only thing that gets lost.
-/

namespace OpsScripts.Markup

/-- A backslash in front of each active letter. -/
def escape (active : Char → Bool) (t : Text) : Text :=
  t.flatMap fun c => if active c then ['\\', c] else [c]

/-- The plain text that is written in a markup; `none` if there is more than plain text. -/
def plain (active escapable : Char → Bool) : Text → Option Text
  | [] => some []
  | [c] => if active c then none else some [c]
  | c :: d :: t =>
    if c = '\\' ∧ escapable d then (plain active escapable t).map (d :: ·)
    else if active c then none
    else (plain active escapable (d :: t)).map (c :: ·)

/-- The letter behind a backslash of a text takes part in an escape sequence once the active
letters are escaped. -/
def isLost (active escapable : Char → Bool) (c : Char) : Bool :=
  if active c then escapable '\\' else escapable c

section Reader

variable {active escapable : Char → Bool} {c d : Char} {t u : Text}

theorem escape_cons_active (h : active c = true) :
    escape active (c :: t) = '\\' :: c :: escape active t := by
  rw [escape, List.flatMap_cons, if_pos h]
  rfl

theorem escape_cons_inactive (h : active c = false) :
    escape active (c :: t) = c :: escape active t := by
  rw [escape, List.flatMap_cons, if_neg (Bool.not_eq_true _ ▸ h)]
  rfl

/-- A text without active letters stays. -/
theorem escape_eq_self (h : ∀ c ∈ t, active c = false) : escape active t = t := by
  induction t with
  | nil => rfl
  | cons c t ih =>
    rw [List.forall_mem_cons] at h
    rw [escape_cons_inactive h.1, ih h.2]

theorem plain_backslash (h : escapable d = true) :
    plain active escapable ('\\' :: d :: t) = (plain active escapable t).map (d :: ·) := by
  rw [plain, if_pos ⟨rfl, h⟩]

/-- A letter that begins no escape sequence stands for itself. -/
theorem plain_cons (h : active c = false)
    (hapart : c = '\\' → ∀ d ∈ u.head?, escapable d = false) :
    plain active escapable (c :: u) = (plain active escapable u).map (c :: ·) := by
  cases u with
  | nil => simp only [plain, h, Bool.false_eq_true, if_false, Option.map_some]
  | cons d u =>
    rw [plain, if_neg, if_neg (Bool.not_eq_true _ ▸ h)]
    rintro ⟨hc, hd⟩
    exact Bool.false_ne_true ((hapart hc d rfl).symm.trans hd)

/-- An active letter that nothing escapes is no plain text. -/
theorem plain_active (h : active c = true) (hc : c ≠ '\\') :
    plain active escapable (c :: u) = none := by
  cases u with
  | nil => rw [plain, if_pos h]
  | cons d u => rw [plain, if_neg fun hd => hc hd.1, if_pos h]

/-- A first letter that does not come back. -/
theorem exists_lost (h : ¬(c = '\\' → ∀ d ∈ t.head?, isLost active escapable d = false)) :
    c = '\\' ∧ ∃ d u, t = d :: u ∧ isLost active escapable d = true := by
  push Not at h
  obtain ⟨hc, d, hd, hlost⟩ := h
  exact ⟨hc, d, t.tail, List.eq_cons_of_mem_head? hd, Bool.not_eq_false _ |>.mp hlost⟩

/-! ## What a reader finds behind the escape sequences -/

variable (hactive : ∀ c, active c = true → escapable c = true) (hback : active '\\' = false)

include hactive

/-- A letter comes back, a backslash only if the letter behind it takes no part. -/
theorem plain_escape_cons (hapart : c = '\\' → ∀ d ∈ t.head?, isLost active escapable d = false) :
    plain active escapable (escape active (c :: t)) =
      (plain active escapable (escape active t)).map (c :: ·) := by
  by_cases h : active c = true
  · rw [escape_cons_active h, plain_backslash (hactive c h)]
  · rw [Bool.not_eq_true] at h
    rw [escape_cons_inactive h]
    apply plain_cons h
    intro hc x hx
    cases t with
    | nil => cases hx
    | cons d t =>
      have hlost := hapart hc d rfl
      rw [isLost] at hlost
      by_cases hd : active d = true
      · rw [escape_cons_active hd] at hx
        rw [if_pos hd] at hlost
        rwa [← Option.some.inj hx]
      · rw [escape_cons_inactive (Bool.not_eq_true _ |>.mp hd)] at hx
        rw [if_neg hd] at hlost
        rwa [← Option.some.inj hx]

include hback

omit hactive in
/-- A backslash of the text is taken for the one of the markup: the letter behind it is active
again, or the backslash is lost. -/
theorem plain_escape_lost (h : isLost active escapable d = true) :
    plain active escapable (escape active ('\\' :: d :: t)) =
      if active d then none else (plain active escapable (escape active t)).map (d :: ·) := by
  rw [isLost] at h
  rw [escape_cons_inactive hback]
  by_cases hd : active d = true
  · rw [if_pos hd] at h
    have hne : d ≠ '\\' := by
      rintro rfl
      exact Bool.false_ne_true (hback.symm.trans hd)
    rw [escape_cons_active hd, plain_backslash h, plain_active hd hne, if_pos hd, Option.map_none]
  · rw [if_neg hd] at h
    rw [escape_cons_inactive (Bool.not_eq_true _ |>.mp hd), plain_backslash h, if_neg hd]

/-- No letters are won. -/
theorem length_le_of_plain_escape :
    ∀ {t v : Text}, plain active escapable (escape active t) = some v → v.length ≤ t.length
  | [], v, h => by
    obtain rfl : [] = v := Option.some.inj h
    exact Nat.le_refl _
  | c :: t, v, h => by
    by_cases hapart : c = '\\' → ∀ d ∈ t.head?, isLost active escapable d = false
    · rw [plain_escape_cons hactive hapart] at h
      obtain ⟨w, hw, rfl⟩ := Option.map_eq_some_iff.mp h
      exact Nat.succ_le_succ (length_le_of_plain_escape hw)
    · obtain ⟨rfl, d, t, rfl, hlost⟩ := exists_lost hapart
      rw [plain_escape_lost hback hlost] at h
      split_ifs at h
      obtain ⟨w, hw, rfl⟩ := Option.map_eq_some_iff.mp h
      have hle := length_le_of_plain_escape hw
      rw [List.length_cons, List.length_cons, List.length_cons]
      omega

/-- A text comes back exactly if none of its backslashes stands in front of a letter that takes
part in an escape sequence. -/
theorem plain_escape_iff (t : Text) : plain active escapable (escape active t) = some t ↔
    ∀ d, ['\\', d] <:+: t → isLost active escapable d = false := by
  induction t with
  | nil =>
    exact iff_of_true rfl fun d hd => absurd hd.length_le (Nat.not_succ_le_zero 1)
  | cons c t ih =>
    -- the first letter takes part or it does not; the other pairs lie behind it
    have hpairs : (∀ d, ['\\', d] <:+: c :: t → isLost active escapable d = false) ↔
        (c = '\\' → ∀ d ∈ t.head?, isLost active escapable d = false) ∧
          ∀ d, ['\\', d] <:+: t → isLost active escapable d = false := by
      have hhead : ∀ d, ['\\', d] <+: c :: t ↔ c = '\\' ∧ d ∈ t.head? := by
        intro d
        rw [List.cons_prefix_cons, eq_comm]
        apply and_congr_right
        intro _
        cases t <;> simp [eq_comm]
      simp only [List.infix_cons_iff, hhead, or_imp, forall_and, and_imp]
      exact and_congr_left fun _ => ⟨fun h hc d => h d hc, fun h d hc => h hc d⟩
    rw [hpairs]
    by_cases hfirst : c = '\\' → ∀ d ∈ t.head?, isLost active escapable d = false
    · rw [plain_escape_cons hactive hfirst, and_iff_right hfirst, ← ih, Option.map_eq_some_iff]
      constructor
      · rintro ⟨w, hw, heq⟩
        rwa [(List.cons.inj heq).2] at hw
      · exact fun hw => ⟨t, hw, rfl⟩
    · refine iff_of_false ?_ fun h => hfirst h.1
      obtain ⟨rfl, d, t, rfl, hlost⟩ := exists_lost hfirst
      rw [plain_escape_lost hback hlost]
      split_ifs
      · exact not_false
      · intro h
        obtain ⟨w, hw, heq⟩ := Option.map_eq_some_iff.mp h
        have hle := length_le_of_plain_escape hactive hback hw
        have hlength := congrArg List.length heq
        rw [List.length_cons, List.length_cons, List.length_cons] at hlength
        omega

end Reader

end OpsScripts.Markup
