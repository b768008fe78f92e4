import OpsScripts.Core.Replacement
import OpsScripts.Zabbix.Listings

/-!
# Names in `DiscoverScheduledTasks.ps1`

The listing of the scheduled tasks has entities in place of some letters with accents. The
monitoring asks for a task by the name that it found, and the script puts the letters back.
-/

namespace OpsScripts.Zabbix.Listing

open Json

/-- The entities and their letters. -/
def entities : List (Text × Text) :=
  [("&acirc;".toList, "â".toList), ("&agrave;".toList, "à".toList),
    ("&ccedil;".toList, "ç".toList), ("&eacute;".toList, "é".toList),
    ("&egrave;".toList, "è".toList), ("&ecirc;".toList, "ê".toList)]

/-- The letters and their entities. -/
def letters : List (Text × Text) := entities.map Prod.swap

/-- `$apptasksok1.replace('â','&acirc;')…`. -/
def encode (name : Text) : Text := replaceAll letters name

/-- `$name.replace('&acirc;','â')…`. -/
def decode (name : Text) : Text := replaceAll entities name

/-- `DiscoverTasks`, for the names of the tasks that are ready. -/
def discoverTasks (apptasksok1 : List Text) : Text := listing apptasks (apptasksok1.map encode)

/-! ## Letters and entities -/

theorem marked_entities : Marked '&' entities where
  old_ne_nil := by decide
  new_ne_nil := by decide
  notMem := by decide
  head := by
    intro e he
    refine ⟨e.1.tail, ?_⟩
    have hall : ∀ e ∈ entities, e.1 = '&' :: e.1.tail ∧ '&' ∉ e.1.tail := by decide
    exact hall e he
  apart := by decide

theorem encode_append (s t : Text) : encode (s ++ t) = encode s ++ encode t := by
  apply replaceAll_letters_append
  intro e he
  have hall : ∀ e ∈ letters, e.1 = [e.1.headD 'x'] := by decide
  exact ⟨_, hall e he⟩

/-- A letter of the table becomes its entity. -/
theorem encode_letter : ∀ e ∈ entities, encode e.2 = e.1 := by decide

/-- Other letters stay. -/
theorem encode_singleton {x : Char} (hx : ∀ e ∈ entities, e.2 ≠ [x]) : encode [x] = [x] := by
  apply replaceAll_eq_self
  · decide
  · intro e he
    obtain ⟨e', he', rfl⟩ := List.mem_map.mp he
    have hall : ∀ e ∈ entities, ∃ c, e.2 = [c] := by
      have hhead : ∀ e ∈ entities, e.2 = [e.2.headD 'x'] := by decide
      exact fun e he => ⟨_, hhead e he⟩
    obtain ⟨c, hc⟩ := hall e' he'
    have hne : c ≠ x := fun heq => hx e' he' (heq ▸ hc)
    refine contains_eq_false_of_mem (c := c) ?_ fun hmem => hne (List.mem_singleton.mp hmem)
    rw [Prod.fst_swap, hc]
    exact List.mem_singleton_self c

/-- The entities themselves stay. -/
theorem encode_entity : ∀ e ∈ entities, encode e.1 = e.1 := by decide

/-- How a text is encoded from its first letter on. -/
theorem encode_cons (x : Char) (t : Text) :
    (∃ e ∈ entities, e.2 = [x] ∧ encode (x :: t) = e.1 ++ encode t) ∨
      (∀ e ∈ entities, e.2 ≠ [x]) ∧ encode (x :: t) = x :: encode t := by
  have hsplit : encode (x :: t) = encode [x] ++ encode t := encode_append [x] t
  by_cases hx : ∃ e ∈ entities, e.2 = [x]
  · obtain ⟨e, he, hletter⟩ := hx
    refine Or.inl ⟨e, he, hletter, ?_⟩
    rw [hsplit, ← hletter, encode_letter e he]
  · push Not at hx
    refine Or.inr ⟨hx, ?_⟩
    rw [hsplit, encode_singleton hx, List.singleton_append]

/-- Encoding brings no end of an entity to the front. -/
theorem prefix_of_prefix_encode {r t : Text} (hr : '&' ∉ r) (h : r <+: encode t) : r <+: t := by
  induction t generalizing r with
  | nil => exact h
  | cons x t ih =>
    cases r with
    | nil => exact List.nil_prefix
    | cons y r =>
      rcases encode_cons x t with ⟨e, he, -, heq⟩ | ⟨-, heq⟩
      · obtain ⟨rest, hrest, -⟩ := marked_entities.head e he
        rw [heq, hrest, List.cons_append, List.cons_prefix_cons] at h
        exact absurd (h.1 ▸ List.mem_cons_self) hr
      · rw [heq, List.cons_prefix_cons] at h
        obtain ⟨rfl, h⟩ := h
        exact List.cons_prefix_cons.mpr ⟨rfl, ih (fun hmem => hr (List.mem_cons_of_mem _ hmem)) h⟩

/-! ## There and back -/

/-- What is encoded is put back, and so is what was an entity before. -/
theorem decode_encode (t : Text) : decode (encode t) = decode t := by
  induction hn : t.length using Nat.strong_induction_on generalizing t with
  | _ n ih =>
    cases t with
    | nil => rfl
    | cons x t =>
      rw [List.length_cons] at hn
      by_cases hfound : ∃ e ∈ entities, e.1 <+: x :: t
      · obtain ⟨e, he, u, hu⟩ := hfound
        have hpos := List.length_pos_of_ne_nil (marked_entities.old_ne_nil e he)
        have hlength := congrArg List.length hu
        rw [List.length_append, List.length_cons] at hlength
        rw [← hu, encode_append, encode_entity e he]
        unfold decode at ih ⊢
        rw [marked_entities.replaceAll_found he, marked_entities.replaceAll_found he,
          ih u.length (by omega) u rfl]
      · push Not at hfound
        rcases encode_cons x t with ⟨e, he, hletter, heq⟩ | ⟨-, heq⟩
        · rw [heq]
          unfold decode at ih ⊢
          rw [marked_entities.replaceAll_found he, marked_entities.replaceAll_cons hfound,
            ih t.length (by omega) t rfl, hletter, List.singleton_append]
        · have hencoded : ∀ e ∈ entities, ¬e.1 <+: x :: encode t := by
            intro e he hprefix
            obtain ⟨rest, hrest, hmark⟩ := marked_entities.head e he
            rw [hrest, List.cons_prefix_cons] at hprefix
            refine hfound e he ?_
            rw [hrest, List.cons_prefix_cons]
            obtain ⟨hhead, htail⟩ := hprefix
            exact ⟨hhead, prefix_of_prefix_encode hmark htail⟩
          rw [heq]
          unfold decode at ih ⊢
          rw [marked_entities.replaceAll_cons hencoded, marked_entities.replaceAll_cons hfound,
            ih t.length (by omega) t rfl]

/-- A task is asked for by its name exactly if the name has no entity. -/
theorem decode_encode_eq_iff (t : Text) :
    decode (encode t) = t ↔ ∀ e ∈ entities, contains e.1 t = false := by
  rw [decode_encode]
  exact marked_entities.toApart.replaceAll_eq_self_iff t

/-- Encoding brings no letter that has to be escaped. -/
theorem plain_encode_iff (t : Text) : Plain (encode t) ↔ Plain t := by
  have hentity : ∀ e ∈ entities, Plain e.1 ∧ Plain e.2 := by
    have hall : ∀ e ∈ entities, (∀ c ∈ e.1, isMark c = false ∧ 32 ≤ c.toNat) ∧
        ∀ c ∈ e.2, isMark c = false ∧ 32 ≤ c.toNat := by decide
    exact hall
  have happend : ∀ s u : Text, Plain (s ++ u) ↔ Plain s ∧ Plain u :=
    fun s u => List.forall_mem_append
  induction t with
  | nil => exact Iff.rfl
  | cons x t ih =>
    rcases encode_cons x t with ⟨e, he, hletter, heq⟩ | ⟨-, heq⟩
    · obtain ⟨hold, hnew⟩ := hentity e he
      rw [heq, ← List.singleton_append, ← hletter]
      refine (happend e.1 (encode t)).trans (Iff.trans ?_ (happend e.2 t).symm)
      constructor
      · rintro ⟨-, ht⟩
        exact And.intro hnew (ih.mp ht)
      · rintro ⟨-, ht⟩
        exact And.intro hold (ih.mpr ht)
    · rw [heq, ← List.singleton_append, ← List.singleton_append]
      exact (happend [x] (encode t)).trans ((and_congr_right' ih).trans (happend [x] t).symm)

/-- The listing of the tasks tells the names with their entities exactly if no name has a quotation
mark, a backslash or a control character. The names of the jobs and the versions follow the same
rule. -/
theorem listings_tell_iff (names : List Text) :
    (lowLevelDiscovery (discoverJobs names) [apptasks] = some (names.map fun n => [n]) ↔
        ∀ n ∈ names, Plain n) ∧
      (lowLevelDiscovery (discovery names) [version] = some (names.map fun n => [n]) ↔
        ∀ n ∈ names, Plain n) ∧
      (lowLevelDiscovery (discoverTasks names) [apptasks] =
          some (names.map fun n => [encode n]) ↔ ∀ n ∈ names, Plain n) := by
  refine ⟨lowLevelDiscovery_listing_iff plain_apptasks names,
    lowLevelDiscovery_listing_iff plain_version names, ?_⟩
  have hencoded := lowLevelDiscovery_listing_iff plain_apptasks (names.map encode)
  rw [List.map_map, List.forall_mem_map] at hencoded
  exact hencoded.trans (forall₂_congr fun n _ => plain_encode_iff n)

end OpsScripts.Zabbix.Listing
