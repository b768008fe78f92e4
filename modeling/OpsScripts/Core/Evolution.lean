import Mathlib.Data.List.Nodup
import Mathlib.Data.List.Pairwise

/-!
# Tables whose rows are changed in place

A table is a list of rows. It evolves when rows are changed where they stand and new ones are put
behind the others, so the place of a row tells what has become of it. A change of the rows of one
key keeps a second key unique if it brings no value that another row has.
-/

namespace OpsScripts

universe u v w

variable {α : Type u}

/-- Each row has become one that it may become, and the rows behind are new ones. -/
structure Evolves (Becomes : α → α → Prop) (New : α → Prop) (xs ys : List α) : Prop where
  length_le : xs.length ≤ ys.length
  kept : ∀ (i : Nat) (x y : α), xs[i]? = some x → ys[i]? = some y → Becomes x y
  added : ∀ (i : Nat) (y : α), xs.length ≤ i → ys[i]? = some y → New y

namespace Evolves

variable {Becomes : α → α → Prop} {New : α → Prop} {xs ys zs : List α}

theorem refl (h : ∀ x ∈ xs, Becomes x x) : Evolves Becomes New xs xs where
  length_le := Nat.le_refl _
  kept i x y hx hy := by
    obtain rfl := Option.some.inj (hx.symm.trans hy)
    exact h x (List.mem_of_getElem? hx)
  added i y hi hy := by
    rw [List.getElem?_eq_none hi] at hy
    cases hy

/-- A change of the rows, with new ones behind. -/
theorem map_append {f : α → α} {new : List α} (hf : ∀ x ∈ xs, Becomes x (f x))
    (hnew : ∀ y ∈ new, New y) : Evolves Becomes New xs (xs.map f ++ new) where
  length_le := by
    rw [List.length_append, List.length_map]
    exact Nat.le_add_right _ _
  kept i x y hx hy := by
    obtain ⟨hlt, -⟩ := List.getElem?_eq_some_iff.mp hx
    rw [List.getElem?_append_left (by rwa [List.length_map]), List.getElem?_map, hx] at hy
    obtain rfl := Option.some.inj hy
    exact hf x (List.mem_of_getElem? hx)
  added i y hi hy := by
    rw [List.getElem?_append_right (by rwa [List.length_map])] at hy
    exact hnew y (List.mem_of_getElem? hy)

/-- Changes only. -/
theorem map {f : α → α} (hf : ∀ x ∈ xs, Becomes x (f x)) : Evolves Becomes New xs (xs.map f) := by
  have happend : Evolves Becomes New xs (xs.map f ++ []) :=
    map_append hf fun _ h => absurd h List.not_mem_nil
  rwa [List.append_nil] at happend

/-- New rows only. -/
theorem append {new : List α} (h : ∀ x ∈ xs, Becomes x x) (hnew : ∀ y ∈ new, New y) :
    Evolves Becomes New xs (xs ++ new) := by
  have hmap := map_append (f := id) h hnew
  rwa [List.map_id] at hmap

/-- One evolution after another, if a new row stays a new one. -/
theorem trans (h : Evolves Becomes New xs ys) (h' : Evolves Becomes New ys zs)
    (htrans : ∀ x y z, Becomes x y → Becomes y z → Becomes x z)
    (hnew : ∀ y z, New y → Becomes y z → New z) : Evolves Becomes New xs zs where
  length_le := Nat.le_trans h.length_le h'.length_le
  kept i x z hx hz := by
    obtain ⟨hlt, -⟩ := List.getElem?_eq_some_iff.mp hx
    have hy := List.getElem?_eq_getElem (Nat.lt_of_lt_of_le hlt h.length_le)
    exact htrans x _ z (h.kept i x _ hx hy) (h'.kept i _ z hy hz)
  added i z hi hz := by
    by_cases hlt : i < ys.length
    · have hy := List.getElem?_eq_getElem hlt
      exact hnew _ z (h.added i _ hi hy) (h'.kept i _ z hy hz)
    · exact h'.added i z (Nat.le_of_not_lt hlt) hz

theorem mono {Becomes' : α → α → Prop} {New' : α → Prop} (h : Evolves Becomes New xs ys)
    (hbecomes : ∀ x y, Becomes x y → Becomes' x y) (hnew : ∀ y, New y → New' y) :
    Evolves Becomes' New' xs ys where
  length_le := h.length_le
  kept i x y hx hy := hbecomes x y (h.kept i x y hx hy)
  added i y hi hy := hnew y (h.added i y hi hy)

end Evolves

section Keys

variable {κ : Type v} {ι : Type w} [DecidableEq κ] {key : α → κ} {place : α → ι} {xs : List α}

/-- A change of the rows of one key, whose new places are free, keeps the places apart. -/
theorem nodup_map_update {k : κ} {f : α → α} (hkeys : (xs.map key).Nodup)
    (hplaces : (xs.map place).Nodup)
    (hfree : ∀ x ∈ xs, ∀ y ∈ xs, key x = k → key y ≠ k → place (f x) ≠ place y) :
    ((xs.map fun x => if key x = k then f x else x).map place).Nodup := by
  rw [List.Nodup, List.pairwise_map] at hkeys hplaces
  rw [List.Nodup, List.pairwise_map, List.pairwise_map]
  refine (hkeys.and hplaces).imp_of_mem fun {x y} hx hy hxy => ?_
  obtain ⟨hkey, hplace⟩ := hxy
  by_cases hxk : key x = k
  · have hyk : key y ≠ k := fun heq => hkey (hxk.trans heq.symm)
    rw [if_pos hxk, if_neg hyk]
    exact hfree x hx y hy hxk hyk
  · rw [if_neg hxk]
    by_cases hyk : key y = k
    · rw [if_pos hyk]
      exact (hfree y hy x hx hyk hxk).symm
    · rwa [if_neg hyk]

omit [DecidableEq κ] in
/-- One more row with a key that no row has. -/
theorem nodup_map_concat {x : α} (h : (xs.map key).Nodup) (hx : ∀ y ∈ xs, key y ≠ key x) :
    ((xs ++ [x]).map key).Nodup := by
  rw [List.map_append, List.map_singleton, List.nodup_append]
  refine ⟨h, List.nodup_singleton _, ?_⟩
  intro a ha b hb
  obtain ⟨y, hy, rfl⟩ := List.mem_map.mp ha
  rw [List.mem_singleton.mp hb]
  exact hx y hy

end Keys

end OpsScripts
