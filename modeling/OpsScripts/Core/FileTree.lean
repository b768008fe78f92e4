import Mathlib.Data.List.Infix
import Mathlib.Data.List.MinMax
import OpsScripts.Core.CloneStore

/-!
# Trees of files that are swept

A tree is a list of entries with their paths. A sweep goes through the directories, the entries of
one before those below it, and removes each entry of a kind with everything below. What it leaves
are the entries with no entry of the kind on their way.
-/

namespace OpsScripts.FileTree

universe u v

/-- A file or a directory, with the names on the way to it. -/
structure Entry (ν : Type u) (δ : Type v) where
  path : List ν
  isDirectory : Bool
  data : δ
  deriving DecidableEq

variable {ν : Type u} {δ : Type v} [DecidableEq ν]

/-- The entry lies below a directory. -/
def Below (d : List ν) (e : Entry ν δ) : Prop := d <+: e.path ∧ d.length < e.path.length

instance (d : List ν) (e : Entry ν δ) : Decidable (Below d e) :=
  inferInstanceAs (Decidable (d <+: e.path ∧ d.length < e.path.length))

omit [DecidableEq ν] in
/-- Every entry that is not at the top lies in a directory. -/
def Closed (t : List (Entry ν δ)) : Prop :=
  ∀ e ∈ t, ∀ q, q ≠ [] → q <+: e.path → q ≠ e.path → ∃ c ∈ t, c.path = q ∧ c.isDirectory = true

/-- Remove an entry and everything below it. -/
def removeItem (path : List ν) (t : List (Entry ν δ)) : List (Entry ν δ) :=
  t.filter fun e => !decide (path <+: e.path)

/-- The entries of a directory. -/
def children (t : List (Entry ν δ)) (d : List ν) : List (Entry ν δ) :=
  t.filter fun e => decide (d <+: e.path ∧ e.path.length = d.length + 1)

/-- One entry of the listing. -/
def pass (p : List (Entry ν δ) → Entry ν δ → Bool) (t : List (Entry ν δ)) (e : Entry ν δ) :
    List (Entry ν δ) :=
  if p t e then removeItem e.path t else t

/-- The listing below a directory, where the entries of a kind are removed as they come; the kind
may depend on what is there. The number is a bound of the depth. -/
def sweep (p : List (Entry ν δ) → Entry ν δ → Bool) :
    Nat → List (Entry ν δ) → List ν → List (Entry ν δ)
  | 0, t, _ => t
  | n + 1, t, d =>
    let t' := (children t d).foldl (pass p) t
    ((children t' d).filter Entry.isDirectory).foldl (fun t c => sweep p n t c.path) t'

/-- Some entry on the way to `e`, below the directory, is of the kind. -/
def Doomed (q : Entry ν δ → Bool) (t : List (Entry ν δ)) (d : List ν) (e : Entry ν δ) : Prop :=
  ∃ a ∈ t, Below d a ∧ a.path <+: e.path ∧ q a = true

instance (q : Entry ν δ → Bool) (t : List (Entry ν δ)) (d : List ν) (e : Entry ν δ) :
    Decidable (Doomed q t d e) :=
  inferInstanceAs (Decidable (∃ a ∈ t, Below d a ∧ a.path <+: e.path ∧ q a = true))

/-- The length of the longest way. -/
def depth (t : List (Entry ν δ)) : Nat := (t.map fun e => e.path.length).foldr max 0

section Sweep

variable {q : Entry ν δ → Bool} {t : List (Entry ν δ)} {d : List ν} {e : Entry ν δ}

theorem mem_children : e ∈ children t d ↔
    e ∈ t ∧ d <+: e.path ∧ e.path.length = d.length + 1 := by
  rw [children, List.mem_filter, decide_eq_true_eq]

theorem mem_removeItem {path : List ν} : e ∈ removeItem path t ↔ e ∈ t ∧ ¬path <+: e.path := by
  rw [removeItem, List.mem_filter, Bool.not_eq_true', decide_eq_false_iff_not]

omit [DecidableEq ν] in
theorem length_le_depth (h : e ∈ t) : e.path.length ≤ depth t :=
  List.le_max_of_le' 0 (List.mem_map_of_mem h) (Nat.le_refl _)

/-- The listing of one directory. -/
theorem foldl_pass (es : List (Entry ν δ)) : es.foldl (pass fun _ => q) t =
    t.filter fun e => es.all fun c => !(q c && decide (c.path <+: e.path)) := by
  have hpass : (pass fun _ => q) = fun (t : List (Entry ν δ)) (c : Entry ν δ) =>
      t.filter fun e => !(q c && decide (c.path <+: e.path)) := by
    funext t c
    rw [pass]
    cases hq : q c with
    | true => simp only [if_true, Bool.true_and, removeItem]
    | false =>
      simp only [Bool.false_eq_true, if_false, Bool.false_and, Bool.not_false, List.filter_true]
  rw [hpass, foldl_filter]

omit [DecidableEq ν] in
/-- A part that keeps with an entry all on the way to it is closed. -/
theorem Closed.filter (h : Closed t) {k : Entry ν δ → Bool}
    (hk : ∀ c e, c.path <+: e.path → k e = true → k c = true) : Closed (t.filter k) := by
  intro e he q hq hinit hne
  obtain ⟨he, hkeep⟩ := List.mem_filter.mp he
  obtain ⟨c, hc, rfl, hdirectory⟩ := h e he q hq hinit hne
  exact ⟨c, List.mem_filter.mpr ⟨hc, hk c e hinit hkeep⟩, rfl, hdirectory⟩

omit [DecidableEq ν] in
/-- What dooms an entry dooms what lies below it. -/
theorem Doomed.lower {c : Entry ν δ} (h : Doomed q t d c) (hinit : c.path <+: e.path) :
    Doomed q t d e := by
  obtain ⟨a, ha, hbelow, hway, hq⟩ := h
  exact ⟨a, ha, hbelow, hway.trans hinit, hq⟩

/-- The entry in a directory on the way to an entry below it. -/
theorem exists_child (h : Closed t) (he : e ∈ t) (hbelow : Below d e) :
    (e.path.length = d.length + 1 ∧ e ∈ children t d) ∨
      ∃ c ∈ children t d, c.isDirectory = true ∧ Below c.path e := by
  obtain ⟨hinit, hlt⟩ := hbelow
  by_cases hlength : e.path.length = d.length + 1
  · exact Or.inl ⟨hlength, mem_children.mpr ⟨he, hinit, hlength⟩⟩
  · have htake : (e.path.take (d.length + 1)).length = d.length + 1 :=
      List.length_take_of_le (by omega)
    have hway : e.path.take (d.length + 1) <+: e.path := List.take_prefix _ _
    obtain ⟨c, hc, hpath, hdirectory⟩ := h e he (e.path.take (d.length + 1))
      (fun hnil => by rw [hnil] at htake; exact absurd htake (Nat.succ_ne_zero _).symm)
      hway (fun heq => hlength (heq ▸ htake))
    have hchild : d <+: c.path := by
      rw [hpath]
      exact List.prefix_of_prefix_length_le hinit hway (by omega)
    refine Or.inr ⟨c, mem_children.mpr ⟨hc, hchild, hpath ▸ htake⟩, hdirectory, hpath ▸ hway, ?_⟩
    rw [hpath, htake]
    omega

/-- Directories that are swept one after another. -/
theorem foldl_sweep {n : Nat} (cs : List (Entry ν δ)) (h : Closed t)
    (hsweep : ∀ t', Closed t' → t' ⊆ t → ∀ c ∈ cs, sweep (fun _ => q) n t' c.path =
      t'.filter fun e => !decide (Doomed q t' c.path e)) :
    cs.foldl (fun t c => sweep (fun _ => q) n t c.path) t =
      t.filter fun e => cs.all fun c => !decide (Doomed q t c.path e) := by
  induction cs using List.reverseRecOn with
  | nil => exact (List.filter_eq_self.mpr fun _ _ => rfl).symm
  | append_singleton cs c ih =>
    have hbefore := ih fun t' hclosed hsub c' hc' =>
      hsweep t' hclosed hsub c' (List.mem_append_left _ hc')
    have hclosed : Closed (t.filter fun e => cs.all fun c => !decide (Doomed q t c.path e)) := by
      apply h.filter
      intro a e hinit hkeep
      rw [List.all_eq_true] at hkeep ⊢
      intro c' hc'
      have hkeep' := hkeep c' hc'
      rw [Bool.not_eq_true', decide_eq_false_iff_not] at hkeep' ⊢
      exact fun hdoomed => hkeep' (hdoomed.lower hinit)
    rw [List.foldl_append, List.foldl_cons, List.foldl_nil, hbefore,
      hsweep _ hclosed (List.filter_subset_self _) c (List.mem_append_right _ List.mem_cons_self),
      List.filter_filter]
    apply List.filter_congr
    intro e he
    rw [List.all_append, List.all_cons, List.all_nil, Bool.and_true, Bool.and_comm]
    cases hall : cs.all fun c => !decide (Doomed q t c.path e) with
    | false => rfl
    | true =>
      rw [Bool.true_and, Bool.true_and]
      congr 1
      rw [decide_eq_decide]
      constructor
      · rintro ⟨a, ha, hway⟩
        exact ⟨a, (List.mem_filter.mp ha).1, hway⟩
      · rintro ⟨a, ha, hbelow, hway, hq⟩
        -- an entry on the way that is gone would have taken `e` with it
        refine ⟨a, List.mem_filter.mpr ⟨ha, ?_⟩, hbelow, hway, hq⟩
        rw [List.all_eq_true] at hall ⊢
        intro c' hc'
        have hkeep := hall c' hc'
        rw [Bool.not_eq_true', decide_eq_false_iff_not] at hkeep ⊢
        exact fun hdoomed => hkeep (hdoomed.lower hway)

/-- A sweep leaves the entries that are not doomed. -/
theorem sweep_eq_filter {n : Nat} (h : Closed t)
    (hn : ∀ e ∈ t, d <+: e.path → e.path.length ≤ d.length + n) :
    sweep (fun _ => q) n t d = t.filter fun e => !decide (Doomed q t d e) := by
  induction n generalizing t d with
  | zero =>
    refine (List.filter_eq_self.mpr fun e _ => ?_).symm
    rw [Bool.not_eq_true', decide_eq_false_iff_not]
    rintro ⟨a, ha, hbelow, -⟩
    have hle := hn a ha hbelow.1
    have hlt := hbelow.2
    omega
  | succ n ih =>
    have hfirst := foldl_pass (q := q) (t := t) (children t d)
    set t' := t.filter fun e => (children t d).all fun c =>
      !(q c && decide (c.path <+: e.path)) with ht'
    have hmem : ∀ e, e ∈ t' ↔ e ∈ t ∧ ∀ c ∈ children t d, q c = true → ¬c.path <+: e.path := by
      intro e
      rw [ht', List.mem_filter, List.all_eq_true]
      refine and_congr_right fun _ => forall₂_congr fun c _ => ?_
      rw [Bool.not_eq_true', Bool.and_eq_false_imp, decide_eq_false_iff_not]
    have hclosed : Closed t' := by
      apply h.filter
      intro c e hinit hkeep
      rw [List.all_eq_true] at hkeep ⊢
      intro c' hc'
      have hkeep' := hkeep c' hc'
      rw [Bool.not_eq_true', Bool.and_eq_false_imp, decide_eq_false_iff_not] at hkeep' ⊢
      exact fun hq hinit' => hkeep' hq (hinit'.trans hinit)
    have hsecond := foldl_sweep (n := n) (q := q) ((children t' d).filter Entry.isDirectory)
      hclosed ?_
    · rw [sweep, hfirst, hsecond, ht', List.filter_filter]
      apply List.filter_congr
      intro e he
      rw [Bool.eq_iff_iff, Bool.and_eq_true, List.all_eq_true, List.all_eq_true, Bool.not_eq_true',
        decide_eq_false_iff_not]
      constructor
      · rintro ⟨hsub, hkeep⟩ ⟨a, ha, hbelow, hway, hq⟩
        have hkept : ∀ c, c ∈ t → c.path <+: e.path → c ∈ t' := by
          intro c hc hinit
          rw [hmem]
          refine ⟨hc, fun c' hc' hq' hinit' => ?_⟩
          have hkeep' := hkeep c' hc'
          rw [Bool.not_eq_true', Bool.and_eq_false_imp, decide_eq_false_iff_not] at hkeep'
          exact hkeep' hq' (hinit'.trans hinit)
        rcases exists_child h ha hbelow with ⟨-, hchild⟩ | ⟨c, hc, hdirectory, hbelow'⟩
        · have hkeep' := hkeep a hchild
          rw [Bool.not_eq_true', Bool.and_eq_false_imp, decide_eq_false_iff_not] at hkeep'
          exact hkeep' hq hway
        · obtain ⟨hct, hinit, hlength⟩ := mem_children.mp hc
          have hct' := hkept c hct (hbelow'.1.trans hway)
          have hgone := hsub c (List.mem_filter.mpr
            ⟨mem_children.mpr ⟨hct', hinit, hlength⟩, hdirectory⟩)
          rw [Bool.not_eq_true', decide_eq_false_iff_not] at hgone
          exact hgone ⟨a, hkept a ha hway, hbelow', hway, hq⟩
      · intro hdoomed
        refine ⟨fun c hc => ?_, fun c hc => ?_⟩
        · rw [Bool.not_eq_true', decide_eq_false_iff_not]
          rintro ⟨a, ha, hbelow, hway, hq⟩
          obtain ⟨-, hinit, hlength⟩ := mem_children.mp (List.mem_of_mem_filter hc)
          refine hdoomed ⟨a, ((hmem a).mp ha).1, ⟨hinit.trans hbelow.1, ?_⟩, hway, hq⟩
          have hlt := hbelow.2
          omega
        · rw [Bool.not_eq_true', Bool.and_eq_false_imp, decide_eq_false_iff_not]
          intro hq hway
          obtain ⟨hct, hinit, hlength⟩ := mem_children.mp hc
          exact hdoomed ⟨c, hct, ⟨hinit, by omega⟩, hway, hq⟩
    · intro t'' hclosed' hsub c hc
      obtain ⟨-, hinit, hlength⟩ := mem_children.mp (List.mem_of_mem_filter hc)
      apply ih hclosed'
      intro e he hway
      have hle := hn e ((hmem e).mp (hsub he)).1 (hinit.trans hway)
      omega

end Sweep

/-! ## Kinds that depend on the tree -/

section Settled

variable {p : List (Entry ν δ) → Entry ν δ → Bool} {t t₀ : List (Entry ν δ)}

/-- What the removal of one entry of the kind keeps is kept by the whole sweep. -/
theorem sweep_keeps {P : List (Entry ν δ) → Prop}
    (hP : ∀ t ⊆ t₀, P t → ∀ c ∈ t₀, p t c = true → P (removeItem c.path t)) (n : Nat)
    (d : List ν) (ht : t ⊆ t₀) (h : P t) : sweep p n t d ⊆ t₀ ∧ P (sweep p n t d) := by
  induction n generalizing t d with
  | zero => exact ⟨ht, h⟩
  | succ n ih =>
    rw [sweep]
    have hfirst : (children t d).foldl (pass p) t ⊆ t₀ ∧
        P ((children t d).foldl (pass p) t) := by
      apply List.foldlRecOn (motive := fun t' => t' ⊆ t₀ ∧ P t') _ _ ⟨ht, h⟩
      rintro t' ⟨hsub, hkept⟩ c hc
      rw [pass]
      split_ifs with hkind
      · exact ⟨List.Subset.trans (List.filter_subset_self _) hsub,
          hP t' hsub hkept c (ht (mem_children.mp hc).1) hkind⟩
      · exact ⟨hsub, hkept⟩
    apply List.foldlRecOn (motive := fun t' => t' ⊆ t₀ ∧ P t') _ _ hfirst
    exact fun t' ht' c _ => ih c.path ht'.1 ht'.2

omit [DecidableEq ν] in
/-- Two loops agree as long as a property holds that the steps keep. -/
theorem foldl_agree {f g : List (Entry ν δ) → Entry ν δ → List (Entry ν δ)}
    {P : List (Entry ν δ) → Prop} (es : List (Entry ν δ))
    (h : ∀ t, P t → ∀ e ∈ es, f t e = g t e ∧ P (f t e)) (ht : P t) :
    es.foldl f t = es.foldl g t ∧ P (es.foldl f t) := by
  induction es generalizing t with
  | nil => exact ⟨rfl, ht⟩
  | cons e es ih =>
    obtain ⟨heq, hnext⟩ := h t ht e List.mem_cons_self
    rw [List.foldl_cons, List.foldl_cons, ← heq]
    exact ih (fun t ht e he => h t ht e (List.mem_cons_of_mem _ he)) hnext

/-- The removal of an entry of the kind changes the kind of no entry. -/
def Settled (p : List (Entry ν δ) → Entry ν δ → Bool) (t₀ : List (Entry ν δ)) : Prop :=
  ∀ t ⊆ t₀, ∀ c ∈ t₀, p t c = true → ∀ e ∈ t₀, p (removeItem c.path t) e = p t e

/-- The sweep of a settled kind goes by what was there in the beginning. -/
theorem sweep_settled (h : Settled p t₀) (n : Nat) (d : List ν) (ht : t ⊆ t₀)
    (hp : ∀ e ∈ t₀, p t e = p t₀ e) : sweep p n t d = sweep (fun _ => p t₀) n t d ∧
      sweep p n t d ⊆ t₀ ∧ ∀ e ∈ t₀, p (sweep p n t d) e = p t₀ e := by
  induction n generalizing t d with
  | zero => exact ⟨rfl, ht, hp⟩
  | succ n ih =>
    have hpass : ∀ t, (t ⊆ t₀ ∧ ∀ e ∈ t₀, p t e = p t₀ e) → ∀ c ∈ t₀,
        pass p t c = pass (fun _ => p t₀) t c ∧ pass p t c ⊆ t₀ ∧
          ∀ e ∈ t₀, p (pass p t c) e = p t₀ e := by
      rintro t ⟨hsub, hsame⟩ c hc
      rw [pass, pass, hsame c hc]
      split_ifs with hkind
      · refine ⟨rfl, List.Subset.trans (List.filter_subset_self _) hsub, fun e he => ?_⟩
        rw [h t hsub c hc (by rw [hsame c hc, hkind]) e he, hsame e he]
      · exact ⟨rfl, hsub, hsame⟩
    obtain ⟨hfirst, hsub, hsame⟩ := foldl_agree (f := pass p) (g := pass fun _ => p t₀)
      (P := fun t => t ⊆ t₀ ∧ ∀ e ∈ t₀, p t e = p t₀ e) (children t d)
      (fun t' ht' c hc => hpass t' ht' c (ht (mem_children.mp hc).1)) ⟨ht, hp⟩
    rw [sweep, sweep, ← hfirst]
    exact foldl_agree (f := fun t c => sweep p n t c.path)
      (g := fun t c => sweep (fun _ => p t₀) n t c.path)
      (P := fun t => t ⊆ t₀ ∧ ∀ e ∈ t₀, p t e = p t₀ e) _
      (fun t' ht' c _ => ih c.path ht'.1 ht'.2) ⟨hsub, hsame⟩

end Settled

end OpsScripts.FileTree
