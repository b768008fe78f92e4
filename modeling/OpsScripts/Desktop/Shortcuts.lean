import Mathlib.Logic.Function.Iterate
import OpsScripts.Core.DateTime
import OpsScripts.Core.OpenPlaces

/-!
# `Change_shortcuts_target.ps1`

The targets of the shortcuts on the desktop get names of servers for their addresses. A start
replaces the first address of the list that a target has, so a target with several of them needs
several starts. The names bring no address, and so the targets settle.
-/

namespace OpsScripts.Desktop

open Regex (Substituted dotEq literal)

/-- The cases of the `Switch`, with the name that takes the place of each address. -/
def addresses : List (Text × Text) :=
  [("192.168.0.153", "s5000.amedia.loc"),
    ("192.168.2.99", "servvideo.amedia.loc"),
    ("192.168.2.101", "fr001.amedia.loc"),
    ("192.168.2.226", "verstka2.amedia.loc"),
    ("192.168.4.231", "spps.action-crm.local"),
    ("192.168.50.200", "pravo.hq.icfed.com"),
    ("192.168.50.233", "mediafs1.amedia.loc"),
    ("192.168.251.240", "crm.action-crm.local"),
    ("10.0.64.254", "check.hq.icfed.com")]

/-- A shortcut on the desktop. -/
structure Shortcut where
  FullName : Text
  targetpath : Text
  deriving DecidableEq

section Script

variable [Culture]

/-- `-wildcard` with a star on both sides. -/
def matchesCase (target : Text) (e : Text × Text) : Bool := like target ('*' :: (e.1 ++ ['*']))

/-- `$Shortcut.Target -replace pattern, new`; an error leaves the target. -/
def replaceOperator (target pattern new : Text) : Text :=
  match Regex.parse (letterEq true) pattern, Regex.parts new with
  | .pattern r, some ps => Regex.substitute r (Regex.expand ps) target
  | _, _ => target

/-- The new target: the first case that matches, then `break`. -/
def newTarget (target : Text) : Text :=
  match addresses.find? (matchesCase target) with
  | some e => replaceOperator target e.1 e.2
  | none => target

/-- One start for all the shortcuts. -/
def changeShortcuts (shortcuts : List Shortcut) : List Shortcut :=
  shortcuts.map fun shortcut => { shortcut with targetpath := newTarget shortcut.targetpath }

/-- The cases that match a target. -/
def found (target : Text) : List (Text × Text) := addresses.filter (matchesCase target)

/-! ## The table -/

theorem toLower_of_stable {t : Text} (h : Stable t) : toLower t = t :=
  (List.map_congr_left fun c hc => (h c hc).2).trans (List.map_id t)

theorem stable_addresses {e : Text × Text} (he : e ∈ addresses) : Stable e.1 ∧ Stable e.2 := by
  have hall : ∀ e ∈ addresses, e.1.all isStable = true ∧ e.2.all isStable = true := by decide
  exact ⟨stable_of_all (hall e he).1, stable_of_all (hall e he).2⟩

/-- A case matches a target with its address. -/
theorem matchesCase_iff {e : Text × Text} (he : e ∈ addresses) (target : Text) :
    matchesCase target e = true ↔ e.1 <:+: toLower target := by
  obtain ⟨haddress, -⟩ := stable_addresses he
  rw [matchesCase, like_between fun c hc => (haddress c hc).1, toLower_of_stable haddress]

/-- No name has one of the addresses or a letter of an address at its ends. -/
theorem walled_addresses {e e' : Text × Text} (he : e ∈ addresses) (he' : e' ∈ addresses) :
    Substituted.Walled e'.1 e.2 := by
  have hall : ∀ e ∈ addresses, ∃ a mid b, e.2 = a :: (mid ++ [b]) ∧
      ∀ e' ∈ addresses, a ∉ e'.1 ∧ b ∉ e'.1 ∧ ¬e'.1 <:+: mid := by
    intro e he
    refine ⟨e.2.headD ' ', e.2.tail.dropLast, e.2.getLastD ' ', ?_⟩
    revert e he
    decide
  obtain ⟨a, mid, b, hname, hapart⟩ := hall e he
  obtain ⟨-, hstable⟩ := stable_addresses he
  exact ⟨a, mid, b, (toLower_of_stable hstable).trans hname, hapart e' he'⟩

/-- A case that replaces: the outcome of the pattern of its address. -/
theorem substituted_newTarget {target : Text} {e : Text × Text} {rest : List (Text × Text)}
    (h : found target = e :: rest) :
    Substituted (dotEq (letterEq true)) e.1 e.2 target (newTarget target) := by
  have hfind : addresses.find? (matchesCase target) = some e := by
    rw [← List.head?_filter]
    exact congrArg List.head? h
  have he := List.mem_of_find?_eq_some hfind
  have hdots : ∀ e ∈ addresses, Regex.WithDots e.1 ∧ Regex.Literal e.2 ∧ e.1 ≠ [] := by decide
  obtain ⟨hpattern, hliteral, hne⟩ := hdots e he
  obtain ⟨out, hout⟩ := Substituted.exists_out hne e.2 target
  have hnew : newTarget target = out := by
    have hparts : Regex.parts e.2 = some (e.2.map .letter) := hliteral
    rw [newTarget, hfind]
    simp only [replaceOperator, Regex.parse_withDots _ hpattern, hparts, Regex.expand_letters]
    exact hout.substitute_eq hne
  rw [hnew]
  exact hout

/-- An address matches its own pattern, in every case. -/
theorem forall₂_dotEq {p u : Text} (h : toLower u = toLower p) :
    List.Forall₂ (fun x y => dotEq (letterEq true) x y = true) p u := by
  induction p generalizing u with
  | nil =>
    rw [List.map_eq_nil_iff.mp h]
    exact .nil
  | cons x p ih =>
    cases u with
    | nil => cases h
    | cons y u =>
      obtain ⟨hxy, hrest⟩ := List.cons.inj h
      refine .cons ?_ (ih hrest)
      rw [dotEq]
      split_ifs with hdot
      · rw [bne_iff_ne]
        rintro rfl
        rw [hdot, Culture.lower_ascii _ (by decide), Culture.lower_ascii _ (by decide)] at hxy
        exact absurd hxy (by decide)
      · rw [letterEq, if_pos rfl, beq_iff_eq, hxy]

/-! ## Starts -/

/-- One start takes the first case away and brings none. -/
theorem found_newTarget (target : Text) :
    (found (newTarget target)).Sublist ((found target).drop 1) := by
  cases hfound : found target with
  | nil =>
    have hnone : addresses.find? (matchesCase target) = none := by
      rw [← List.head?_filter]
      exact congrArg List.head? hfound
    have hsame : newTarget target = target := by rw [newTarget, hnone]
    rw [hsame, hfound]
    exact List.Sublist.refl _
  | cons e rest =>
    have hout := substituted_newTarget hfound
    have he : e ∈ addresses := (List.mem_filter.mp (hfound ▸ List.mem_cons_self)).1
    have hne : ∀ e ∈ addresses, e.1 ≠ [] := by decide
    have hfewer : found (newTarget target) =
        (e :: rest).filter (matchesCase (newTarget target)) := by
      rw [← hfound, found, found, List.filter_filter]
      apply List.filter_congr
      intro e' he'
      rw [Bool.eq_iff_iff, Bool.and_eq_true, matchesCase_iff he', matchesCase_iff he']
      refine (and_iff_left_of_imp fun hmatch => ?_).symm
      exact Substituted.infix_of_infix (walled_addresses he he') (hne e' he') hout hmatch
    have hgone : e ∉ found (newTarget target) := by
      intro hmem
      have hmatch := (matchesCase_iff he _).mp (List.mem_filter.mp hmem).2
      have hstable := toLower_of_stable (stable_addresses he).1
      refine Substituted.not_infix ?_ (hne e he) (fun _ => forall₂_dotEq) hout ?_
      · rw [hstable]
        exact walled_addresses he he
      · rw [hstable]
        exact hmatch
    have hsublist : (found (newTarget target)).Sublist (e :: rest) := hfewer ▸ List.filter_sublist
    rcases List.sublist_cons_iff.mp hsublist with hrest | ⟨rest', heq, -⟩
    · exact hrest
    · exact absurd (heq ▸ List.mem_cons_self) hgone

/-- A target stays exactly if no case matches. -/
theorem newTarget_eq_self_iff (target : Text) : newTarget target = target ↔ found target = [] := by
  constructor
  · intro h
    have hsublist := found_newTarget target
    rw [h] at hsublist
    have hle := hsublist.length_le
    rw [List.length_drop] at hle
    exact List.length_eq_zero_iff.mp (by omega)
  · intro h
    have hnone : addresses.find? (matchesCase target) = none := by
      rw [← List.head?_filter]
      exact congrArg List.head? h
    rw [newTarget, hnone]

/-- After some starts the first cases of a target are gone, one for each start. -/
theorem found_iterate (target : Text) (n : Nat) :
    (found (newTarget^[n] target)).Sublist ((found target).drop n) := by
  induction n with
  | zero => exact List.Sublist.refl _
  | succ n ih =>
    rw [Function.iterate_succ_apply', ← List.drop_drop]
    exact (found_newTarget _).trans (ih.drop 1)

/-- Starts change each shortcut by itself. -/
theorem iterate_changeShortcuts (shortcuts : List Shortcut) (n : Nat) :
    changeShortcuts^[n] shortcuts =
      shortcuts.map fun s => { s with targetpath := newTarget^[n] s.targetpath } := by
  induction n with
  | zero => exact (List.map_id _).symm
  | succ n ih =>
    rw [Function.iterate_succ_apply', ih, changeShortcuts, List.map_map]
    apply List.map_congr_left
    intro s _
    rw [Function.comp_apply, Function.iterate_succ_apply']

/-- After as many starts as there are cases no target has an address. -/
theorem found_of_mem_iterate {shortcuts : List Shortcut} {n : Nat} (hn : addresses.length ≤ n)
    {s : Shortcut} (hs : s ∈ changeShortcuts^[n] shortcuts) : found s.targetpath = [] := by
  rw [iterate_changeShortcuts] at hs
  obtain ⟨s, -, rfl⟩ := List.mem_map.mp hs
  have hlength : (found s.targetpath).length ≤ n :=
    (List.length_filter_le _ addresses).trans hn
  have hsublist := found_iterate s.targetpath n
  rw [List.drop_eq_nil_of_le hlength, List.sublist_nil] at hsublist
  exact hsublist

/-- Every start takes from each target its first address and brings none, so after some starts at
most the addresses behind the first ones are left; a target changes exactly as long as it has one
of the addresses, and after as many starts as there are cases nothing changes any more. -/
theorem changeShortcuts_settle :
    (∀ target n, (found (newTarget^[n] target)).Sublist ((found target).drop n)) ∧
      (∀ target, newTarget target = target ↔ found target = []) ∧
      ∀ shortcuts : List Shortcut, changeShortcuts (changeShortcuts^[addresses.length] shortcuts) =
        changeShortcuts^[addresses.length] shortcuts := by
  refine ⟨found_iterate, newTarget_eq_self_iff, fun shortcuts => ?_⟩
  have hnone : ∀ s ∈ changeShortcuts^[addresses.length] shortcuts, found s.targetpath = [] :=
    fun s hs => found_of_mem_iterate (Nat.le_refl _) hs
  generalize changeShortcuts^[addresses.length] shortcuts = settled at hnone ⊢
  have hsame : ∀ s ∈ settled, { s with targetpath := newTarget s.targetpath } = id s := by
    intro s hs
    rw [(newTarget_eq_self_iff _).mpr (hnone s hs)]
    rfl
  rw [changeShortcuts, List.map_congr_left hsame, List.map_id]

end Script

end OpsScripts.Desktop
