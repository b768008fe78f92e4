import Mathlib.Data.List.Induction
import Mathlib.Data.List.Nodup

/-!
# Stores that grow by cloning

Entries are found by a key, and every entry with the key of an item takes the
values of the item. An item with a new key gets an entry only while the store has
enough entries to clone from. `recordAll_eq` says what a list of items makes of a
store: the old entries with their last values, followed by the newcomers.
-/

namespace OpsScripts

universe u v w

/-- How entries and items of a store relate. -/
structure CloneStore (Entry : Type u) (Item : Type v) (Key : Type w) where
  key : Entry → Key
  itemKey : Item → Key
  /-- The clone of an entry, all of whose fields come from the item. -/
  fresh : Item → Entry
  /-- An entry with the values of the item. -/
  change : Item → Entry → Entry
  /-- The number of entries from which a clone can be made. -/
  spare : Nat
  key_fresh : ∀ i, key (fresh i) = itemKey i
  key_change : ∀ i e, key (change i e) = key e
  change_change : ∀ i j e, change i (change j e) = change i e

/-- Filters in sequence are one filter. -/
theorem foldl_filter {α : Type u} {β : Type v} (p : β → α → Bool) (bs : List β) (as : List α) :
    bs.foldl (fun as b => as.filter (p b)) as = as.filter fun a => bs.all fun b => p b a := by
  induction bs generalizing as with
  | nil => exact (List.filter_eq_self.mpr fun _ _ => rfl).symm
  | cons b bs ih =>
    rw [List.foldl_cons, ih, List.filter_filter]
    exact List.filter_congr fun a _ => by rw [List.all_cons, Bool.and_comm]

namespace CloneStore

variable {Entry : Type u} {Item : Type v} {Key : Type w} [DecidableEq Key]
  (S : CloneStore Entry Item Key)

/-- The values of an item for the entries with its key. -/
def touch (i : Item) (e : Entry) : Entry := if S.key e = S.itemKey i then S.change i e else e

/-- The store has an entry with this key. -/
def Has (c : List Entry) (k : Key) : Prop := ∃ e ∈ c, S.key e = k

instance (c : List Entry) (k : Key) : Decidable (S.Has c k) :=
  inferInstanceAs (Decidable (∃ e ∈ c, S.key e = k))

/-- Clone an entry for a new item, if there are enough entries. -/
def insert (c : List Entry) (i : Item) : List Entry :=
  if S.spare ≤ c.length then c ++ [S.fresh i] else c

/-- Record one item. -/
def record (c : List Entry) (i : Item) : List Entry :=
  (if S.Has c (S.itemKey i) then c else S.insert c i).map (S.touch i)

/-- Record a list of items. -/
def recordAll (c : List Entry) (is : List Item) : List Entry := is.foldl S.record c

/-- The last item with this key. -/
def lastFor (is : List Item) (k : Key) : Option Item :=
  (is.filter fun i => S.itemKey i = k).getLast?

/-- An entry with the values of the last item for it. -/
def settle (is : List Item) (e : Entry) : Entry :=
  match S.lastFor is (S.key e) with
  | none => e
  | some i => S.change i e

/-- The first items of the keys that are not in the store. -/
def newcomers (c : List Entry) (is : List Item) : List Item :=
  is.foldl (fun new i =>
    if S.Has c (S.itemKey i) ∨ ∃ j ∈ new, S.itemKey j = S.itemKey i then new else new ++ [i]) []

/-- The entries of the store and the newcomers, all with their last values. -/
def recorded (c : List Entry) (is : List Item) : List Entry :=
  (c ++ if S.spare ≤ c.length then (S.newcomers c is).map S.fresh else []).map (S.settle is)

@[simp] theorem key_settle (is : List Item) (e : Entry) : S.key (S.settle is e) = S.key e := by
  unfold settle
  split
  · rfl
  · exact S.key_change _ e

theorem lastFor_append (is : List Item) (i : Item) (k : Key) :
    S.lastFor (is ++ [i]) k = if S.itemKey i = k then some i else S.lastFor is k := by
  unfold lastFor
  by_cases h : S.itemKey i = k <;> simp [h]

/-- The last values come from the last item. -/
theorem settle_append (is : List Item) (i : Item) (e : Entry) :
    S.settle (is ++ [i]) e = S.touch i (S.settle is e) := by
  unfold touch
  rw [key_settle]
  unfold settle
  rw [lastFor_append]
  by_cases h : S.itemKey i = S.key e
  · rw [if_pos h, if_pos h.symm]
    cases S.lastFor is (S.key e) with
    | none => rfl
    | some j => exact (S.change_change i j e).symm
  · rw [if_neg h, if_neg fun h' => h h'.symm]

theorem newcomers_append (c : List Entry) (is : List Item) (i : Item) :
    S.newcomers c (is ++ [i]) =
      if S.Has c (S.itemKey i) ∨ ∃ j ∈ S.newcomers c is, S.itemKey j = S.itemKey i then
        S.newcomers c is else S.newcomers c is ++ [i] := by
  rw [newcomers, List.foldl_append]
  rfl

/-- The keys that the recorded store has. -/
theorem has_recorded (c : List Entry) (is : List Item) (k : Key) :
    S.Has (S.recorded c is) k ↔
      S.Has c k ∨ (S.spare ≤ c.length ∧ ∃ j ∈ S.newcomers c is, S.itemKey j = k) := by
  by_cases hspare : S.spare ≤ c.length <;>
    simp [Has, recorded, hspare, key_fresh, or_and_right, exists_or]

/-- What recording a list of items makes of a store. -/
theorem recordAll_eq (c : List Entry) (is : List Item) : S.recordAll c is = S.recorded c is := by
  induction is using List.reverseRecOn with
  | nil =>
    have hsettle : S.settle ([] : List Item) = id := rfl
    simp [recordAll, recorded, newcomers, hsettle]
  | append_singleton is i ih =>
    have hfold : S.recordAll c (is ++ [i]) = S.record (S.recordAll c is) i := by
      simp [recordAll]
    have hsettle : S.settle (is ++ [i]) = S.touch i ∘ S.settle is :=
      funext fun e => S.settle_append is i e
    rw [hfold, ih, record]
    simp only [has_recorded]
    by_cases hspare : S.spare ≤ c.length
    · by_cases hold : S.Has c (S.itemKey i) ∨ ∃ j ∈ S.newcomers c is, S.itemKey j = S.itemKey i
      · rw [if_pos (by simpa [hspare] using hold)]
        simp [recorded, newcomers_append, hold, hspare, hsettle]
      · have hlen : S.spare ≤ (S.recorded c is).length := by
          simp only [recorded, List.length_map, List.length_append]
          omega
        have htouch : S.touch i (S.settle is (S.fresh i)) = S.touch i (S.fresh i) := by
          simp only [touch, key_settle, key_fresh, if_true]
          unfold settle
          cases S.lastFor is (S.key (S.fresh i)) with
          | none => rfl
          | some j => exact S.change_change i j _
        rw [if_neg (by simpa [hspare] using hold), insert, if_pos hlen]
        simp [recorded, newcomers_append, hold, hspare, hsettle, htouch]
    · have hlen : ¬ S.spare ≤ (S.recorded c is).length := by
        simp [recorded, hspare]
      have hsame : (if S.Has c (S.itemKey i) ∨ S.spare ≤ c.length ∧
          ∃ j ∈ S.newcomers c is, S.itemKey j = S.itemKey i then S.recorded c is
          else S.insert (S.recorded c is) i) = S.recorded c is := by
        split
        · rfl
        · exact if_neg hlen
      rw [hsame]
      simp [recorded, hspare, hsettle]

/-! ## Keys and entries -/

/-- The keys of a store, in order. -/
def keys (c : List Entry) : List Key := c.map S.key

/-- The entries with one key. -/
def entriesOf (c : List Entry) (k : Key) : List Entry := c.filter fun e => S.key e = k

omit [DecidableEq Key] in
theorem has_iff_mem_keys {c : List Entry} {k : Key} : S.Has c k ↔ k ∈ S.keys c := by
  simp [Has, keys]

theorem mem_of_lastFor {is : List Item} {k : Key} {i : Item} (h : S.lastFor is k = some i) :
    i ∈ is ∧ S.itemKey i = k := by
  simpa using List.mem_filter.mp (List.mem_of_getLast? h)

theorem lastFor_eq_none_iff {is : List Item} {k : Key} :
    S.lastFor is k = none ↔ ∀ i ∈ is, S.itemKey i ≠ k := by
  simp [lastFor]

/-- There is one newcomer for every key of an item that the store does not have. -/
theorem exists_newcomer_iff (c : List Entry) (is : List Item) (k : Key) :
    (∃ j ∈ S.newcomers c is, S.itemKey j = k) ↔ ¬ S.Has c k ∧ ∃ i ∈ is, S.itemKey i = k := by
  induction is using List.reverseRecOn with
  | nil => simp [newcomers]
  | append_singleton is i ih =>
    rw [newcomers_append]
    by_cases hi : S.itemKey i = k
    · subst hi
      by_cases hold : S.Has c (S.itemKey i)
      · rw [if_pos (Or.inl hold), ih]
        simp [hold]
      · by_cases hnew : ∃ j ∈ S.newcomers c is, S.itemKey j = S.itemKey i
        · rw [if_pos (Or.inr hnew)]
          simpa [hold] using hnew
        · rw [if_neg (by simp [hold, hnew])]
          simp [hold]
    · have hsame : (∃ j ∈ is ++ [i], S.itemKey j = k) ↔ ∃ j ∈ is, S.itemKey j = k := by
        simp [hi, or_and_right, exists_or]
      rw [hsame, ← ih]
      split
      · rfl
      · simp [hi, or_and_right, exists_or]

/-- The newcomers are the first items of the keys that the store does not have. -/
theorem mem_newcomers_iff {c : List Entry} {is : List Item} {j : Item} :
    j ∈ S.newcomers c is ↔
      ¬ S.Has c (S.itemKey j) ∧ (is.find? fun i => S.itemKey i = S.itemKey j) = some j := by
  induction is using List.reverseRecOn with
  | nil => simp [newcomers]
  | append_singleton is i ih =>
    have hlast : (is ++ [i]).find? (fun x => S.itemKey x = S.itemKey j) =
        (is.find? fun x => S.itemKey x = S.itemKey j).or
          (if S.itemKey i = S.itemKey j then some i else none) := by
      rw [List.find?_append]
      by_cases hij : S.itemKey i = S.itemKey j <;> simp [hij]
    rw [newcomers_append, hlast]
    cases hfind : is.find? fun x => S.itemKey x = S.itemKey j with
    | some x =>
      obtain ⟨hx, hkey⟩ : x ∈ is ∧ S.itemKey x = S.itemKey j :=
        ⟨List.mem_of_find?_eq_some hfind, by simpa using List.find?_some hfind⟩
      rw [hfind] at ih
      rw [Option.some_or, ← ih]
      split
      · rfl
      · next hnew =>
        rw [List.mem_append, List.mem_singleton, or_iff_left]
        rintro rfl
        by_cases hhas : S.Has c (S.itemKey j)
        · exact hnew (Or.inl hhas)
        · exact hnew (Or.inr ((S.exists_newcomer_iff c is _).mpr ⟨hhas, x, hx, hkey⟩))
    | none =>
      have hnone : ∀ x ∈ is, S.itemKey x ≠ S.itemKey j := by
        intro x hx hkey
        exact List.find?_eq_none.mp hfind x hx (decide_eq_true hkey)
      have hold : j ∉ S.newcomers c is := by
        rw [ih, hfind]
        exact fun h => Option.some_ne_none j h.2.symm
      rw [Option.none_or]
      split
      · next hnew =>
        refine iff_of_false hold fun h => ?_
        obtain ⟨hhas, hij⟩ := h
        obtain ⟨hkey, rfl⟩ : S.itemKey i = S.itemKey j ∧ i = j := by simpa using hij
        obtain hhas' | hold' := hnew
        · exact hhas hhas'
        · obtain ⟨-, x, hx, hxi⟩ := (S.exists_newcomer_iff c is _).mp hold'
          exact hnone x hx hxi
      · next hnew =>
        rw [List.mem_append, List.mem_singleton, or_iff_right hold]
        constructor
        · rintro rfl
          exact ⟨fun hhas => hnew (Or.inl hhas), if_pos rfl⟩
        · rintro ⟨-, hij⟩
          obtain ⟨-, rfl⟩ : S.itemKey i = S.itemKey j ∧ i = j := by simpa using hij
          rfl

theorem not_has_of_mem_newcomers {c : List Entry} {is : List Item} {j : Item}
    (h : j ∈ S.newcomers c is) : ¬ S.Has c (S.itemKey j) :=
  ((S.exists_newcomer_iff c is _).mp ⟨j, h, rfl⟩).1

/-- A store without enough entries does not grow. -/
theorem length_recorded_of_lt {c : List Entry} (h : c.length < S.spare) (is : List Item) :
    (S.recorded c is).length = c.length := by
  simp [recorded, Nat.not_le.mpr h]

/-- No two newcomers have the same key. -/
theorem nodup_newcomers (c : List Entry) (is : List Item) :
    ((S.newcomers c is).map S.itemKey).Nodup := by
  induction is using List.reverseRecOn with
  | nil => simp [newcomers]
  | append_singleton is i ih =>
    rw [newcomers_append]
    split
    · exact ih
    · next h =>
      rw [List.map_append, List.map_singleton, List.nodup_append]
      refine ⟨ih, List.nodup_singleton _, fun a ha b hb hab => h (Or.inr ?_)⟩
      obtain ⟨j, hj, rfl⟩ := List.mem_map.mp ha
      exact ⟨j, hj, hab.trans (List.mem_singleton.mp hb)⟩

/-- The keys of the recorded store. -/
theorem keys_recorded (c : List Entry) (is : List Item) : S.keys (S.recorded c is) =
    S.keys c ++ if S.spare ≤ c.length then (S.newcomers c is).map S.itemKey else [] := by
  by_cases hspare : S.spare ≤ c.length <;>
    simp [keys, recorded, hspare, Function.comp_def, key_fresh]

/-- Keys that occur at most once still do so after recording. -/
theorem nodup_keys_recorded {c : List Entry} {p : Key → Bool}
    (h : ((S.keys c).filter p).Nodup) (is : List Item) :
    ((S.keys (S.recorded c is)).filter p).Nodup := by
  rw [keys_recorded, List.filter_append]
  split
  · refine List.nodup_append.mpr ⟨h, (S.nodup_newcomers c is).filter _, fun a ha b hb hab => ?_⟩
    obtain ⟨j, hj, rfl⟩ := List.mem_map.mp (List.mem_filter.mp hb).1
    have hmem := S.has_iff_mem_keys.mpr (List.mem_filter.mp ha).1
    exact S.not_has_of_mem_newcomers hj (hab ▸ hmem)
  · simpa using h

/-- An item finds its key in the recorded store if the store had it or could be added to. -/
theorem has_recorded_of_mem {c : List Entry} {is : List Item} {i : Item} (hi : i ∈ is) :
    S.Has (S.recorded c is) (S.itemKey i) ↔ S.Has c (S.itemKey i) ∨ S.spare ≤ c.length := by
  rw [has_recorded, exists_newcomer_iff]
  by_cases hold : S.Has c (S.itemKey i)
  · simp [hold]
  · simp only [hold, not_false_eq_true, true_and, false_or]
    exact and_iff_left ⟨i, hi, rfl⟩

/-- An entry of the recorded store has the values of the last item with its key. -/
theorem eq_change_of_mem_recorded {c : List Entry} {is : List Item} {e : Entry} {i : Item}
    (he : e ∈ S.recorded c is) (hi : S.lastFor is (S.key e) = some i) :
    ∃ e₀, e = S.change i e₀ := by
  obtain ⟨e₀, -, rfl⟩ := List.mem_map.mp he
  rw [key_settle] at hi
  exact ⟨e₀, by rw [settle, hi]⟩

/-- An entry of the recorded store without an item is an entry of the old store. -/
theorem mem_of_mem_recorded {c : List Entry} {is : List Item} {e : Entry}
    (he : e ∈ S.recorded c is) (hi : S.lastFor is (S.key e) = none) : e ∈ c := by
  obtain ⟨e₀, hmem, rfl⟩ := List.mem_map.mp he
  rw [key_settle] at hi
  have hsame : S.settle is e₀ = e₀ := by rw [settle, hi]
  rw [hsame]
  rcases List.mem_append.mp hmem with hold | hnew
  · exact hold
  · split at hnew
    · obtain ⟨j, hj, rfl⟩ := List.mem_map.mp hnew
      rw [key_fresh] at hi
      obtain ⟨i, hmem, hkey⟩ := ((S.exists_newcomer_iff c is _).mp ⟨j, hj, rfl⟩).2
      exact absurd hkey (S.lastFor_eq_none_iff.mp hi i hmem)
    · exact absurd hnew List.not_mem_nil

/-- An old entry is in the recorded store with its last values. -/
theorem settle_mem_recorded {c : List Entry} {is : List Item} {e : Entry} (he : e ∈ c) :
    S.settle is e ∈ S.recorded c is :=
  List.mem_map.mpr ⟨e, List.mem_append_left _ he, rfl⟩

/-- Removing other entries leaves the one entry of a key. -/
theorem entriesOf_filter {c : List Entry} {k : Key} {e : Entry} {q : Entry → Bool}
    (h : S.entriesOf c k = [e]) (hq : q e = true) : S.entriesOf (c.filter q) k = [e] := by
  have hcomm : S.entriesOf (c.filter q) k = (S.entriesOf c k).filter q := by
    simp only [entriesOf, List.filter_filter]
    exact List.filter_congr fun _ _ => Bool.and_comm _ _
  rw [hcomm, h, List.filter_cons_of_pos hq, List.filter_nil]

/-- A key that occurs at most once has one entry, if it has any. -/
theorem entriesOf_eq_singleton {c : List Entry} {p : Key → Bool} {k : Key}
    (h : ((S.keys c).filter p).Nodup) (hp : p k = true) (hhas : S.Has c k) :
    ∃ e, S.entriesOf c k = [e] := by
  have hcount : (S.entriesOf c k).length = ((S.keys c).filter p).count k := by
    rw [List.count_filter hp, entriesOf, keys, List.count, List.countP_map,
      List.countP_eq_length_filter]
    congr 1
  have hone : ((S.keys c).filter p).count k = 1 :=
    List.count_eq_one_of_mem h (List.mem_filter.mpr ⟨S.has_iff_mem_keys.mp hhas, hp⟩)
  exact List.length_eq_one_iff.mp (hcount.trans hone)

end CloneStore

end OpsScripts
