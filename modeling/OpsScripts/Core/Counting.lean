import Mathlib.Algebra.BigOperators.Group.Finset.Basic
import Mathlib.Algebra.GroupWithZero.Nat
import Mathlib.Algebra.Order.BigOperators.Group.List
import Mathlib.Algebra.Order.Group.Nat

/-!
# Counting

Items are counted key by key, and a count of more items is the same as one of fewer only if
nothing is added.
-/

namespace OpsScripts

/-! ## By keys -/

section Keys

variable {α κ : Type*} [DecidableEq κ]

/-- Each key that is counted for an item is the one of the item. -/
theorem sum_map_ite {ks : List κ} (h : ks.Nodup) (k : κ) :
    (ks.map fun k' => if k = k' then 1 else 0).sum = if k ∈ ks then 1 else 0 := by
  induction ks with
  | nil => rfl
  | cons k' ks ih =>
    rw [List.nodup_cons] at h
    rw [List.map_cons, List.sum_cons, ih h.2]
    by_cases hk : k = k'
    · subst hk
      simp [h.1]
    · simp [hk]

/-- Items are counted key by key. -/
theorem sum_countP {ks : List κ} (hks : ks.Nodup) (f : α → κ) {p : α → Bool} {xs : List α}
    (h : ∀ x ∈ xs, p x = true ↔ f x ∈ ks) :
    (ks.map fun k => xs.countP fun x => f x = k).sum = xs.countP p := by
  induction xs with
  | nil => simp
  | cons x xs ih =>
    rw [List.forall_mem_cons] at h
    have hstep : ∀ k, ((x :: xs).countP fun x => f x = k) =
        (xs.countP fun x => f x = k) + if f x = k then 1 else 0 := by
      intro k
      simp [List.countP_cons]
    simp only [hstep]
    rw [List.sum_map_add, ih h.2, sum_map_ite hks, List.countP_cons]
    simp only [h.1]

/-- Items of the same keys are counted alike. -/
theorem countP_eq_of_perm {β : Type*} {key : α → κ} {key' : β → κ} {xs : List α} {ys : List β}
    {p : α → Bool} {q : β → Bool} (h : (xs.map key).Perm (ys.map key'))
    (hpq : ∀ x ∈ xs, ∀ y ∈ ys, key x = key' y → p x = q y) : xs.countP p = ys.countP q := by
  -- what is asked of an item depends on its key only
  let answer : κ → Bool := fun k => xs.any fun x => decide (key x = k) && p x
  have hanswer : ∀ k b, (∃ x ∈ xs, key x = k) → (∀ x ∈ xs, key x = k → p x = b) →
      answer k = b := by
    rintro k b ⟨x, hx, hk⟩ hall
    rw [Bool.eq_iff_iff, List.any_eq_true]
    simp only [Bool.and_eq_true, decide_eq_true_eq]
    constructor
    · rintro ⟨x', hx', hk', hp⟩
      rwa [← hall x' hx' hk']
    · exact fun hb => ⟨x, hx, hk, (hall x hx hk).trans hb⟩
  have hys : ∀ y ∈ ys, answer (key' y) = q y := by
    intro y hy
    obtain ⟨x, hx, hk⟩ := List.mem_map.mp (h.mem_iff.mpr (List.mem_map_of_mem hy))
    exact hanswer _ _ ⟨x, hx, hk⟩ fun x' hx' hk' => hpq x' hx' y hy hk'
  have hxs : ∀ x ∈ xs, answer (key x) = p x := by
    intro x hx
    obtain ⟨y, hy, hk⟩ := List.mem_map.mp (h.mem_iff.mp (List.mem_map_of_mem hx))
    rw [← hk, hys y hy, hpq x hx y hy hk.symm]
  calc xs.countP p = xs.countP (answer ∘ key) :=
        List.countP_congr fun x hx => by rw [Function.comp_apply, hxs x hx]
    _ = (ys.map key').countP answer := by rw [← List.countP_map, h.countP_eq]
    _ = ys.countP q := by
        rw [List.countP_map]
        exact List.countP_congr fun y hy => by rw [Function.comp_apply, hys y hy]

end Keys

/-! ## Counts of more -/

/-- A count of more is the same exactly if nothing is added. -/
theorem countP_eq_iff {α : Type*} {p q : α → Bool} {xs : List α}
    (h : ∀ x ∈ xs, p x = true → q x = true) :
    xs.countP q = xs.countP p ↔ ∀ x ∈ xs, q x = true → p x = true := by
  constructor
  · intro heq
    induction xs with
    | nil => exact fun x hx => absurd hx List.not_mem_nil
    | cons x xs ih =>
      rw [List.forall_mem_cons] at h
      have hle := List.countP_mono_left h.2
      rw [List.countP_cons, List.countP_cons] at heq
      rw [List.forall_mem_cons]
      cases hp : p x with
      | true =>
        rw [hp, h.1 hp] at heq
        exact ⟨fun _ => rfl, ih h.2 (Nat.add_right_cancel heq)⟩
      | false =>
        cases hq : q x with
        | true =>
          rw [hp, hq, if_pos rfl, if_neg Bool.false_ne_true] at heq
          omega
        | false =>
          rw [hp, hq] at heq
          exact ⟨id, ih h.2 (Nat.add_right_cancel heq)⟩
  · intro h'
    apply List.countP_congr
    exact fun x hx => ⟨h' x hx, h x hx⟩

/-- A sum of more is the same exactly if nothing is added. -/
theorem sum_eq_iff {α : Type*} {f g : α → Nat} {xs : List α} (h : ∀ x ∈ xs, f x ≤ g x) :
    (xs.map g).sum = (xs.map f).sum ↔ ∀ x ∈ xs, g x = f x := by
  constructor
  · intro heq
    induction xs with
    | nil => exact fun x hx => absurd hx List.not_mem_nil
    | cons x xs ih =>
      rw [List.forall_mem_cons] at h
      have hle := List.sum_le_sum h.2
      rw [List.map_cons, List.map_cons, List.sum_cons, List.sum_cons] at heq
      rw [List.forall_mem_cons]
      have hx := h.1
      exact ⟨by omega, ih h.2 (by omega)⟩
  · intro h'
    rw [List.map_congr_left h']

end OpsScripts
