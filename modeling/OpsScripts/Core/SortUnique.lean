import Mathlib.Data.List.Destutter
import Mathlib.Data.List.Sort

/-!
# Sorting without repetitions

A list is sorted by a comparison that may take different values for equal, and of equal values
that come to stand next to each other the first one is kept. Where the comparison tells the values
apart, the result is their one list in strict order: it depends on nothing but which values there
are.
-/

namespace OpsScripts

/-- A comparison that puts any two values in an order. -/
structure Comparison {α : Type*} (le : α → α → Bool) : Prop where
  trans : ∀ x y z, le x y → le y z → le x z
  total : ∀ x y, (le x y || le y x) = true

/-- Strictly before. -/
def Before {α : Type*} (le : α → α → Bool) (x y : α) : Prop := le y x = false

instance {α : Type*} (le : α → α → Bool) : DecidableRel (Before le) :=
  fun x y => inferInstanceAs (Decidable (le y x = false))

/-- The sorted list without repetitions. -/
def sortUnique {α : Type*} (le : α → α → Bool) (xs : List α) : List α :=
  (xs.mergeSort le).destutter (Before le)

namespace Comparison

variable {α : Type*} {le : α → α → Bool} (h : Comparison le)

include h

theorem refl (x : α) : le x x = true := by
  have htotal := h.total x x
  rwa [Bool.or_self] at htotal

theorem le_of_before {x y : α} (hxy : Before le x y) : le x y = true := by
  have htotal := h.total x y
  rwa [show le y x = false from hxy, Bool.or_false] at htotal

/-- The comparison the other way round. -/
theorem flip : Comparison fun x y => le y x where
  trans x y z hxy hyz := h.trans z y x hyz hxy
  total x y := h.total y x

theorem irrefl (x : α) : ¬Before le x x := by
  intro hx
  rw [Before, h.refl] at hx
  cases hx

theorem asymm {x y : α} (hxy : Before le x y) : ¬Before le y x := by
  intro hyx
  rw [Before, h.le_of_before hxy] at hyx
  cases hyx

theorem before_trans {x y z : α} (hxy : Before le x y) (hyz : Before le y z) : Before le x z := by
  rw [Before, Bool.eq_false_iff]
  intro hzx
  have hle := h.trans z x y hzx (h.le_of_before hxy)
  rw [show le z y = false from hyz] at hle
  cases hle

/-- The result is in strict order. -/
theorem pairwise_sortUnique (xs : List α) : (sortUnique le xs).Pairwise (Before le) := by
  have : IsTrans α (Before le) := ⟨fun _ _ _ => h.before_trans⟩
  apply List.isChain_iff_pairwise.mp
  apply List.isChain_destutter

theorem nodup_sortUnique (xs : List α) : (sortUnique le xs).Nodup := by
  have : Std.Irrefl (Before le) := ⟨h.irrefl⟩
  exact (h.pairwise_sortUnique xs).nodup

omit h in
theorem mem_of_mem_sortUnique {x : α} {xs : List α} (hx : x ∈ sortUnique le xs) : x ∈ xs :=
  List.mem_mergeSort.mp ((List.destutter_sublist _ _).subset hx)

/-- A value of a sorted list is kept, or one that is equal to it. -/
theorem exists_mem_destutter' {a x : α} {xs : List α} (hsorted : (a :: xs).Pairwise (le · ·))
    (hx : x ∈ a :: xs) : ∃ y ∈ xs.destutter' (Before le) a, le x y = true ∧ le y x = true := by
  induction xs generalizing a x with
  | nil =>
    obtain rfl := List.mem_singleton.mp hx
    exact ⟨x, List.mem_singleton_self x, h.refl x, h.refl x⟩
  | cons b xs ih =>
    obtain ⟨hle, hrest⟩ := List.pairwise_cons.mp hsorted
    by_cases hab : Before le a b
    · rw [List.destutter'_cons_pos _ hab]
      rcases List.mem_cons.mp hx with rfl | hx
      · exact ⟨x, List.mem_cons_self, h.refl x, h.refl x⟩
      · obtain ⟨y, hy, hxy⟩ := ih hrest hx
        exact ⟨y, List.mem_cons_of_mem a hy, hxy⟩
    · rw [List.destutter'_cons_neg _ hab]
      have hskip : (a :: xs).Pairwise (le · ·) :=
        hsorted.sublist ((List.sublist_cons_self b xs).cons_cons a)
      rcases List.mem_cons.mp hx with rfl | hx
      · exact ih hskip List.mem_cons_self
      rcases List.mem_cons.mp hx with rfl | hx
      · refine ⟨a, List.mem_destutter' _ _ a, ?_, hle x List.mem_cons_self⟩
        rwa [Before, Bool.not_eq_false] at hab
      · exact ih hskip (List.mem_cons_of_mem a hx)

/-- Every value is in the result, or one that is equal to it. -/
theorem exists_mem_sortUnique {x : α} {xs : List α} (hx : x ∈ xs) :
    ∃ y ∈ sortUnique le xs, le x y = true ∧ le y x = true := by
  have hsorted := List.pairwise_mergeSort h.trans h.total xs
  have hmem : x ∈ xs.mergeSort le := List.mem_mergeSort.mpr hx
  rw [sortUnique]
  cases hsort : xs.mergeSort le with
  | nil =>
    rw [hsort] at hmem
    cases hmem
  | cons a ys =>
    rw [hsort] at hsorted hmem
    exact h.exists_mem_destutter' hsorted hmem

/-- Values that are told apart are all in the result. -/
theorem mem_sortUnique {xs : List α} (hapart : ∀ x ∈ xs, ∀ y ∈ xs, le x y → le y x → x = y)
    {x : α} : x ∈ sortUnique le xs ↔ x ∈ xs := by
  constructor
  · exact mem_of_mem_sortUnique
  · intro hx
    obtain ⟨y, hy, hxy, hyx⟩ := h.exists_mem_sortUnique hx
    rwa [hapart x hx y (mem_of_mem_sortUnique hy) hxy hyx]

/-- The result depends on nothing but which values there are. -/
theorem sortUnique_eq_of_mem_iff {xs ys : List α}
    (hapart : ∀ x ∈ xs, ∀ y ∈ xs, le x y → le y x → x = y) (hmem : ∀ x, x ∈ ys ↔ x ∈ xs) :
    sortUnique le ys = sortUnique le xs := by
  have : Std.Irrefl (Before le) := ⟨h.irrefl⟩
  have : Std.Antisymm (Before le) := ⟨fun _ _ hxy hyx => absurd hyx (h.asymm hxy)⟩
  apply (h.pairwise_sortUnique ys).eq_of_mem_iff (h.pairwise_sortUnique xs)
  intro x
  have hapart' : ∀ x ∈ ys, ∀ y ∈ ys, le x y → le y x → x = y :=
    fun x hx y hy => hapart x ((hmem x).mp hx) y ((hmem y).mp hy)
  rw [h.mem_sortUnique hapart', h.mem_sortUnique hapart, hmem x]

end Comparison

end OpsScripts
