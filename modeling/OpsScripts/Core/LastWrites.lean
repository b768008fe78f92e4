import Mathlib.Data.List.Dedup
import Mathlib.Data.List.Induction
import Mathlib.Data.List.Pairwise
import Mathlib.Data.List.Perm.Basic

/-!
# Last entries of each key

A list of entries is kept up to date by taking out the entry of the same key before the new one is
appended. From a list of distinct keys the result are the last entries of each key, and in a list
that is ordered by time these are the newest.
-/

namespace OpsScripts

universe u v

variable {α : Type u} {κ : Type v} [DecidableEq κ] (key : α → κ)

/-- The last entry of each key, in the order of these. -/
def lasts (xs : List α) : List α := xs.pwFilter fun x y => key x ≠ key y

/-- A new entry takes the place of the only one of its key; several ones stay. -/
def supersede [DecidableEq α] (xs : List α) (x : α) : List α :=
  match xs.filter fun y => key y = key x with
  | [prior] => xs.erase prior ++ [x]
  | _ => xs ++ [x]

section Lasts

variable {key} {x y : α} {xs ys : List α}

theorem forall_mem_lasts_iff : (∀ y ∈ lasts key xs, key x ≠ key y) ↔ ∀ y ∈ xs, key x ≠ key y := by
  apply List.forall_mem_pwFilter
  intro x y z hxz
  by_cases hxy : key x = key y
  · exact Or.inr fun hyz => hxz (hxy.trans hyz)
  · exact Or.inl hxy

/-- An entry is left out if a later one has its key. -/
theorem lasts_cons (x : α) (xs : List α) :
    lasts key (x :: xs) = if key x ∈ xs.map key then lasts key xs else x :: lasts key xs := by
  split_ifs with h
  · refine List.pwFilter_cons_of_neg fun hall => ?_
    obtain ⟨y, hy, hkey⟩ := List.mem_map.mp h
    exact forall_mem_lasts_iff.mp hall y hy hkey.symm
  · refine List.pwFilter_cons_of_pos (forall_mem_lasts_iff.mpr fun y hy hkey => h ?_)
    exact hkey ▸ List.mem_map_of_mem hy

theorem lasts_sublist (xs : List α) : (lasts key xs).Sublist xs := List.pwFilter_sublist xs

/-- No two of the last entries have the same key. -/
theorem nodup_lasts (key : α → κ) (xs : List α) : ((lasts key xs).map key).Nodup :=
  List.pairwise_map.mpr (List.pairwise_pwFilter xs)

theorem lasts_eq_self (h : (xs.map key).Nodup) : lasts key xs = xs :=
  List.pwFilter_eq_self.mpr (List.pairwise_map.mp h)

/-- An entry is last, or stands before the last one of its key. -/
theorem exists_mem_lasts (key : α → κ) (hx : x ∈ xs) :
    ∃ y ∈ lasts key xs, key y = key x ∧ (y = x ∨ [x, y].Sublist xs) := by
  induction xs with
  | nil => cases hx
  | cons z xs ih =>
    rw [lasts_cons]
    rcases List.mem_cons.mp hx with rfl | hx
    · split_ifs with hlater
      · obtain ⟨z, hz, hkey⟩ := List.mem_map.mp hlater
        have hlast : ∃ y ∈ lasts key xs, key y = key x := by
          by_contra hnone
          push Not at hnone
          exact forall_mem_lasts_iff.mp (fun y hy => (hnone y hy).symm) z hz hkey.symm
        obtain ⟨y, hy, hkey⟩ := hlast
        have hmem := (lasts_sublist xs).subset hy
        exact ⟨y, hy, hkey, Or.inr ((List.singleton_sublist.mpr hmem).cons_cons x)⟩
      · exact ⟨x, List.mem_cons_self, rfl, Or.inl rfl⟩
    · obtain ⟨y, hy, hkey, horder⟩ := ih hx
      refine ⟨y, ?_, hkey, horder.imp_right fun h => h.cons z⟩
      split_ifs
      · exact hy
      · exact List.mem_cons_of_mem _ hy

/-- In a list that is ordered by time the last entry of a key is its newest. -/
theorem exists_newest {R : α → α → Prop} (hrefl : ∀ x, R x x)
    (hxs : xs.Pairwise fun x y => key x = key y → R x y) (hx : x ∈ xs) :
    ∃ y ∈ lasts key xs, key y = key x ∧ R x y := by
  obtain ⟨y, hy, hkey, rfl | horder⟩ := exists_mem_lasts key hx
  · exact ⟨y, hy, hkey, hrefl y⟩
  · have hpair := hxs.sublist horder
    exact ⟨y, hy, hkey, List.rel_of_pairwise_cons hpair (List.mem_singleton_self y) hkey.symm⟩

/-- One more entry takes out what was last of its key. -/
theorem lasts_concat (xs : List α) (x : α) :
    lasts key (xs ++ [x]) = (lasts key xs).filter (fun y => key y ≠ key x) ++ [x] := by
  induction xs with
  | nil => rfl
  | cons z xs ih =>
    rw [List.cons_append, lasts_cons, lasts_cons, ih, List.map_append, List.map_singleton]
    by_cases hlater : key z ∈ xs.map key
    · rw [if_pos (List.mem_append_left _ hlater), if_pos hlater]
    · rw [if_neg hlater]
      by_cases hx : key z = key x
      · rw [if_pos (List.mem_append_right _ (List.mem_singleton.mpr hx)),
          List.filter_cons_of_neg (by simpa using hx)]
      · rw [if_neg, List.filter_cons_of_pos (by simpa using hx), List.cons_append]
        exact fun h => (List.mem_append.mp h).elim hlater fun h => hx (List.mem_singleton.mp h)

end Lasts

section Supersede

variable [DecidableEq α] {key} {x : α} {xs : List α}

/-- Taking out the only entry of a key leaves the entries of other keys. -/
theorem erase_of_filter_eq {prior : α} (h : (xs.filter fun y => key y = key x) = [prior]) :
    xs.erase prior = xs.filter fun y => key y ≠ key x := by
  induction xs with
  | nil => rfl
  | cons z xs ih =>
    by_cases hz : key z = key x
    · rw [List.filter_cons_of_pos (by simpa using hz), List.cons.injEq] at h
      obtain ⟨rfl, hnone⟩ := h
      have hother : ∀ y ∈ xs, key y ≠ key x := by simpa using hnone
      rw [List.erase_cons_head, List.filter_cons_of_neg (by simpa using hz), eq_comm,
        List.filter_eq_self]
      simpa using hother
    · rw [List.filter_cons_of_neg (by simpa using hz)] at h
      have hprior : prior ∈ xs.filter fun y => key y = key x := h ▸ List.mem_singleton_self prior
      have hkey : key prior = key x := by simpa using List.of_mem_filter hprior
      have hne : z ≠ prior := by
        rintro rfl
        exact hz hkey
      rw [List.erase_cons_tail (by simpa using hne), ih h,
        List.filter_cons_of_pos (by simpa using hz)]

/-- How many entries of a key there are behind a new one. -/
theorem count_supersede (xs : List α) (x : α) (k : κ) :
    ((supersede key xs x).map key).count k =
      if k = key x then
        if (xs.map key).count k = 1 then 1 else (xs.map key).count k + 1
      else (xs.map key).count k := by
  have hcount : (xs.map key).count (key x) = (xs.filter fun y => key y = key x).length := by
    rw [List.count, List.countP_map, List.countP_eq_length_filter]
    congr 1
  have hkept : (xs.filter fun y => key y ≠ key x).map key =
      (xs.map key).filter fun k => k ≠ key x := by
    rw [List.filter_map]
    rfl
  unfold supersede
  split
  · next prior h =>
    rw [erase_of_filter_eq h, List.map_append, hkept, List.count_append, List.map_singleton,
      List.count_singleton]
    by_cases hk : k = key x
    · subst hk
      have hone : (xs.map key).count (key x) = 1 := by
        rw [hcount, h]
        rfl
      have hzero : ((xs.map key).filter fun k => k ≠ key x).count (key x) = 0 :=
        List.count_eq_zero_of_not_mem (by simp)
      rw [hone, hzero]
      simp
    · rw [if_neg hk, List.count_filter (by simpa using hk)]
      simp [Ne.symm hk]
  · next h =>
    rw [List.map_append, List.count_append, List.map_singleton, List.count_singleton]
    by_cases hk : k = key x
    · subst hk
      have hne : (xs.map key).count (key x) ≠ 1 := by
        rw [hcount]
        intro hone
        obtain ⟨prior, hprior⟩ := List.length_eq_one_iff.mp hone
        exact h prior hprior
      rw [if_pos rfl, if_neg hne]
      simp
    · rw [if_neg hk]
      simp [Ne.symm hk]

/-- A new entry brings no key twice, and undoes no such key. -/
theorem nodup_supersede_iff (xs : List α) (x : α) :
    ((supersede key xs x).map key).Nodup ↔ (xs.map key).Nodup := by
  rw [List.nodup_iff_count_le_one, List.nodup_iff_count_le_one]
  apply forall_congr'
  intro k
  rw [count_supersede]
  split_ifs <;> omega

/-- Keeping up to date brings no key twice, and undoes no such key. -/
theorem nodup_foldl_supersede_iff (original xs : List α) :
    ((xs.foldl (supersede key) original).map key).Nodup ↔ (original.map key).Nodup := by
  induction xs generalizing original with
  | nil => exact Iff.rfl
  | cons x xs ih => rw [List.foldl_cons, ih, nodup_supersede_iff]

/-- With distinct keys the entries of the other keys stay. -/
theorem supersede_eq (h : (xs.map key).Nodup) (x : α) :
    supersede key xs x = xs.filter (fun y => key y ≠ key x) ++ [x] := by
  unfold supersede
  split
  · next prior hprior => rw [erase_of_filter_eq hprior]
  · next hprior =>
    have hnone : ∀ y ∈ xs, key y ≠ key x := by
      intro y hy hkey
      obtain ⟨before, behind, rfl⟩ := List.append_of_mem hy
      rw [List.map_append, List.map_cons, hkey, List.nodup_append] at h
      obtain ⟨-, hbehind, hapart⟩ := h
      rw [List.nodup_cons] at hbehind
      have hbefore : before.filter (fun y => key y = key x) = [] := by
        rw [List.filter_eq_nil_iff]
        intro z hz
        have hne := hapart (key z) (List.mem_map_of_mem hz) (key x) List.mem_cons_self
        simpa using hne
      have hafter : behind.filter (fun y => key y = key x) = [] := by
        rw [List.filter_eq_nil_iff]
        intro z hz
        have hne : key z ≠ key x := fun hz' => hbehind.1 (hz' ▸ List.mem_map_of_mem hz)
        simpa using hne
      refine hprior y ?_
      rw [List.filter_append, hbefore, List.filter_cons_of_pos (by simpa using hkey), hafter]
      rfl
    rw [eq_comm, List.filter_eq_self.mpr (by simpa using hnone)]

/-- Entries that are kept up to date are the last ones. -/
theorem foldl_supersede_eq_lasts {original : List α} (h : (original.map key).Nodup) (xs : List α) :
    xs.foldl (supersede key) original = lasts key (original ++ xs) := by
  induction xs using List.reverseRecOn with
  | nil => rw [List.foldl_nil, List.append_nil, lasts_eq_self h]
  | append_singleton xs x ih =>
    rw [List.foldl_append, List.foldl_cons, List.foldl_nil, ih, supersede_eq (nodup_lasts _ _),
      ← List.append_assoc, lasts_concat]

end Supersede

end OpsScripts
