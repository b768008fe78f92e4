import OpsScripts.OneC.Licences

/-!
# Slots and the order of the sessions

The slot of a licence is its place among the presentations as the listing shows them.
Any session can come first in the listing, so any licence can have the slot 0: the
printed text is the same in every order only if all licences look alike.
-/

namespace OpsScripts.OneC

/-! ## Listings of sessions -/

/-- A session of the licence listing: its lines, at most one of which names a licence. -/
structure LicenceSession where
  lines : List Text
  line : ∀ l ∈ lines, OneLine l
  single : (presentations lines).length ≤ 1

/-- The lines of a listing. -/
def licenceLines (ss : List LicenceSession) : List Text := ss.flatMap LicenceSession.lines

/-- `rac session list --licenses`. -/
def printLicences (ss : List LicenceSession) : Text := unlines (licenceLines ss)

/-- The presentations that a listing shows. -/
def shown (ss : List LicenceSession) : List Text := presentations (licenceLines ss)

theorem newline_notMem_licenceLines {ss : List LicenceSession} {l : Text}
    (hl : l ∈ licenceLines ss) : '\n' ∉ l := by
  obtain ⟨s, -, hs⟩ := List.mem_flatMap.mp hl
  exact (s.line l hs).1

theorem alllic_printLicences (ss : List LicenceSession) : alllic (printLicences ss) = shown ss :=
  alllic_unlines fun _ => newline_notMem_licenceLines

theorem shown_cons (s : LicenceSession) (ss : List LicenceSession) :
    shown (s :: ss) = presentations s.lines ++ shown ss :=
  List.filterMap_append

theorem perm_licenceLines {ss ss' : List LicenceSession} (h : ss'.Perm ss) :
    (licenceLines ss').Perm (licenceLines ss) :=
  h.flatMap_right _

theorem perm_shown {ss ss' : List LicenceSession} (h : ss'.Perm ss) :
    (shown ss').Perm (shown ss) :=
  (perm_licenceLines h).filterMap _

/-- Every presentation can be the first one. -/
theorem exists_perm_head {ss : List LicenceSession} {p : Text} (hp : p ∈ shown ss) :
    ∃ ss', ss'.Perm ss ∧ (shown ss').head? = some p := by
  obtain ⟨l, hl, hlp⟩ := List.mem_filterMap.mp hp
  obtain ⟨s, hs, hls⟩ := List.mem_flatMap.mp hl
  obtain ⟨before, after, rfl⟩ := List.append_of_mem hs
  refine ⟨s :: (before ++ after), List.perm_middle.symm, ?_⟩
  have hmem : p ∈ presentations s.lines := List.mem_filterMap.mpr ⟨l, hls, hlp⟩
  have hone : presentations s.lines = [p] := by
    have hlength := s.single
    cases hps : presentations s.lines with
    | nil =>
      rw [hps] at hmem
      cases hmem
    | cons q qs =>
      rw [hps, List.length_cons] at hlength
      have hqs : qs = [] := List.eq_nil_of_length_eq_zero (by omega)
      subst hqs
      rw [hps, List.mem_singleton] at hmem
      rw [hmem]
  rw [shown_cons, hone]
  rfl

/-! ## The order does not matter to the parts -/

variable {E : PyRe}

/-- A modelled presentation gives the same licence in every order. -/
theorem licence_perm {ss ss' : List LicenceSession} (h : ss'.Perm ss) {p : Text}
    (hp : p ∈ shown ss) (hmodelled : Modelled p) :
    licence E (printLicences ss') p = licence E (printLicences ss) p := by
  obtain ⟨l, hl, hlp⟩ := List.mem_filterMap.mp hp
  have hbreak := newline_notMem_of_presentation (newline_notMem_licenceLines hl) hlp
  cases hparts : parts p with
  | none => rw [licence_eq_none_iff.mpr (Or.inl hparts), licence_eq_none_iff.mpr (Or.inl hparts)]
  | some q =>
    have hne : p ≠ [] := ne_nil_of_parts (hparts ▸ rfl)
    rw [licence, licence, printLicences, printLicences,
      PyRe.count_perm hmodelled hne hbreak (perm_licenceLines h)]

theorem count_licensePath_perm {ss ss' : List LicenceSession} (h : ss'.Perm ss) :
    E.count licensePath (printLicences ss') = E.count licensePath (printLicences ss) := by
  have hdots : Regex.WithDots licensePath := by decide +kernel
  exact PyRe.count_perm (modelled_of_withDots hdots) (by decide) (by decide) (perm_licenceLines h)

/-! ## Stable slots -/

/-- The same sessions in another order give the same text. -/
def SlotsStable (E : PyRe) (ss : List LicenceSession) : Prop :=
  ∀ ss', ss'.Perm ss → licenseKeys E (printLicences ss') = licenseKeys E (printLicences ss)

/-- In every order some presentation lacks a part or is no valid expression, or all of
them agree in their parts and in how often they find themselves. -/
def LicencesAlike (E : PyRe) (ss : List LicenceSession) : Prop :=
  (∀ ss', ss'.Perm ss →
      ∃ p ∈ shown ss, parts p = none ∨ E.count p (printLicences ss') = none) ∨
    ∃ q n, ∀ ss', ss'.Perm ss →
      ∀ p ∈ shown ss, parts p = some q ∧ E.count p (printLicences ss') = some n

/-- Numbered copies of one licence. -/
theorem map_zipIdx_const {xs ys : List Text} (h : xs.length = ys.length) (d : Licence) :
    (xs.zipIdx.map fun p => (d, p.2)) = ys.zipIdx.map fun p => (d, p.2) := by
  have hsnd : ∀ zs : List Text, (zs.zipIdx.map fun p => (d, p.2)) =
      (List.range' 0 zs.length).map fun i => (d, i) := by
    intro zs
    rw [← List.zipIdx_map_snd 0 zs, List.map_map]
    rfl
  rw [hsnd, hsnd, h]

/-- Licences that look alike leave the text as it is. -/
theorem LicencesAlike.slotsStable {ss : List LicenceSession} (h : LicencesAlike E ss) :
    SlotsStable E ss := by
  intro ss' hperm
  rcases h with hfail | ⟨q, m, hd⟩
  · have hnone : ∀ ts : List LicenceSession, ts.Perm ss →
        licenseKeys E (printLicences ts) = none := by
      intro ts hts
      obtain ⟨p, hp, hlicence⟩ := hfail ts hts
      have hfound : p ∈ alllic (printLicences ts) := by
        rw [alllic_printLicences]
        exact (perm_shown hts).mem_iff.mpr hp
      rw [licenseKeys, licences_eq_none hfound (licence_eq_none_iff.mpr hlicence), Option.map_none]
    rw [hnone ss' hperm, hnone ss (List.Perm.refl ss)]
  · let d : Licence := ⟨q, m⟩
    obtain ⟨n, hn⟩ := exists_count_licensePath (E := E) (printLicences ss)
    have hsome : ∀ ts : List LicenceSession, ts.Perm ss → licences E (printLicences ts) =
        some (jsons (roundHalf n) ((firstSeen (shown ts)).zipIdx.map fun p => (d, p.2))) := by
      intro ts hts
      have hread : ∀ p ∈ alllic (printLicences ts), licence E (printLicences ts) p = some d := by
        intro p hp
        rw [alllic_printLicences] at hp
        exact licence_eq_some_iff.mpr (hd ts hts p ((perm_shown hts).mem_iff.mp hp))
      rw [licences_eq_some ((count_licensePath_perm hts).trans hn) hread, alllic_printLicences]
    rw [licenseKeys, licenseKeys, hsome ss' hperm, hsome ss (List.Perm.refl ss),
      map_zipIdx_const (length_firstSeen_of_perm (perm_shown hperm)) d]

/-- The first object of a printed text belongs to the first presentation. -/
theorem exists_head_of_licences {ss : List LicenceSession} {n : Nat} {f : Text → Licence} {p : Text}
    (hn : E.count licensePath (printLicences ss) = some n)
    (hread : ∀ p ∈ shown ss, licence E (printLicences ss) p = some (f p))
    (hp : (shown ss).head? = some p) : ∃ rest, licenseKeys E (printLicences ss) =
      some (report (jsons (roundHalf n) ((f p, 0) :: rest))) := by
  have hhead := head?_firstSeen (shown ss)
  rw [hp] at hhead
  obtain ⟨qs, hqs⟩ := List.head?_eq_some_iff.mp hhead
  rw [← alllic_printLicences] at hread
  rw [licenseKeys, licences_eq_some hn hread, alllic_printLicences, hqs, List.zipIdx_cons,
    List.map_cons]
  exact ⟨_, rfl⟩

/-- A text that is the same in every order shows one licence only. -/
theorem SlotsStable.licencesAlike {ss : List LicenceSession} (h : SlotsStable E ss)
    (hmodelled : ∀ p ∈ shown ss, Modelled p) : LicencesAlike E ss := by
  by_cases hfail : ∃ p ∈ shown ss, licence E (printLicences ss) p = none
  · obtain ⟨p, hp, hnone⟩ := hfail
    refine Or.inl fun ss' hperm => ⟨p, hp, ?_⟩
    rw [← licence_eq_none_iff, licence_perm hperm hp (hmodelled p hp), hnone]
  · push Not at hfail
    have hread : ∀ p, ∃ d, p ∈ shown ss → licence E (printLicences ss) p = some d := by
      intro p
      cases hl : licence E (printLicences ss) p with
      | none => exact ⟨⟨⟨[], [], [], []⟩, 0⟩, fun hp => absurd hl (hfail p hp)⟩
      | some d => exact ⟨d, fun _ => rfl⟩
    choose f hf using hread
    have hf' : ∀ ss', ss'.Perm ss → ∀ p ∈ shown ss, licence E (printLicences ss') p = some (f p) :=
      fun ss' hperm p hp => (licence_perm hperm hp (hmodelled p hp)).trans (hf p hp)
    obtain ⟨n, hn⟩ := exists_count_licensePath (E := E) (printLicences ss)
    have hfirst : ∀ p ∈ shown ss, ∃ rest, licenseKeys E (printLicences ss) =
        some (report (jsons (roundHalf n) ((f p, 0) :: rest))) := by
      intro p hp
      obtain ⟨ss', hperm, hhead⟩ := exists_perm_head hp
      rw [← h ss' hperm]
      exact exists_head_of_licences ((count_licensePath_perm hperm).trans hn)
        (fun q hq => hf' ss' hperm q ((perm_shown hperm).mem_iff.mp hq)) hhead
    -- two presentations that can both be first have the same first object
    have hsame : ∀ p ∈ shown ss, ∀ q ∈ shown ss, f p = f q := by
      intro p hp q hq
      obtain ⟨rest, hrest⟩ := hfirst p hp
      obtain ⟨rest', hrest'⟩ := hfirst q hq
      have hreport := congrArg Json.loads (Option.some.inj (hrest.symm.trans hrest'))
      rw [loads_report_jsons (List.cons_ne_nil _ _), loads_report_jsons (List.cons_ne_nil _ _)]
        at hreport
      simp only [Option.some.injEq, Json.arr.injEq, List.map_cons, List.cons.injEq] at hreport
      exact Licence.eq_of_json hreport.1
    cases hshown : shown ss with
    | nil =>
      refine Or.inr ⟨⟨[], [], [], []⟩, 0, fun ss' _ p hp => ?_⟩
      rw [hshown] at hp
      cases hp
    | cons p ps =>
      have hp : p ∈ shown ss := hshown ▸ List.mem_cons_self
      refine Or.inr ⟨(f p).toParts, (f p).Usedkey, fun ss' hperm q hq => ?_⟩
      rw [← licence_eq_some_iff, hf' ss' hperm q hq, hsame q hq p hp]

/-- The slots are stable for licences that look alike, and for no others. -/
theorem slotsStable_iff (E : PyRe) (ss : List LicenceSession) :
    (LicencesAlike E ss → SlotsStable E ss) ∧
      ((∀ p ∈ shown ss, Modelled p) → (SlotsStable E ss ↔ LicencesAlike E ss)) :=
  ⟨LicencesAlike.slotsStable, fun h => ⟨fun hs => hs.licencesAlike h, LicencesAlike.slotsStable⟩⟩

/-! ## Two keys change places -/

/-- A session with one of the two keys. -/
def keySession (key : String) (h : OneLine key.toList := by decide) : LicenceSession where
  lines := [fullPresentation ++ key.toList]
  line := by
    intro l hl
    rw [List.mem_singleton.mp hl, OneLine, List.mem_append, List.mem_append, not_or, not_or]
    exact ⟨⟨by decide, h.1⟩, by decide, h.2⟩
  single := List.length_filterMap_le _ _

/-- Sessions with two different keys. -/
def twoKeys : List LicenceSession :=
  [keySession " Server, 5340, 1C-LIC, 1585, 8101922464 100 100, file",
    keySession " Server, 5340, 1C-LIC, 1585, 8101924317 500 500, file"]

/-- The key that comes first takes the slot 0. -/
theorem twoKeys_not_slotsStable : ¬SlotsStable PyRe.core twoKeys := by
  have hshown : shown twoKeys =
      [" Server, 5340, 1C-LIC, 1585, 8101922464 100 100, file".toList,
        " Server, 5340, 1C-LIC, 1585, 8101924317 500 500, file".toList] := by decide +kernel
  have hdots : ∀ p ∈ shown twoKeys, Regex.WithDots p := by
    rw [hshown]
    decide +kernel
  have hparts : ∀ p ∈ shown twoKeys, (parts p).isSome := by
    rw [hshown]
    decide +kernel
  intro h
  rcases h.licencesAlike fun p hp => modelled_of_withDots (hdots p hp) with hfail | ⟨q, n, hq⟩
  · obtain ⟨p, hp, hnone | hnone⟩ := hfail twoKeys (List.Perm.refl _)
    · have hsome := hparts p hp
      rw [hnone] at hsome
      cases hsome
    · rw [PyRe.count, PyRe.core.findall_pattern _ _ _ (Regex.proper_literal _ _)
        (Regex.parsePython_withDots (hdots p hp))] at hnone
      cases hnone
  · have hnumber : ∀ p ∈ shown twoKeys, (parts p).map Parts.KeyNumber = some q.KeyNumber := by
      intro p hp
      rw [(hq twoKeys (List.Perm.refl _) p hp).1, Option.map_some]
    rw [hshown] at hnumber
    have hfirst := hnumber _ List.mem_cons_self
    have hsecond := hnumber _ (List.mem_cons_of_mem _ List.mem_cons_self)
    rw [← hsecond] at hfirst
    revert hfirst
    decide +kernel

end OpsScripts.OneC
