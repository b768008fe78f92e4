import OpsScripts.OneC.Licences

/-!
# The use of a licence

The number of uses is the number of times that a presentation, read as a regular
expression, finds its own text in the listing. It is right when that is the number of
lines with the presentation: a text of letters and dots that occurs in no other line is
counted well, a text with parentheses finds something else, or nothing, or is no valid
expression at all.
-/

namespace OpsScripts.OneC

/-- The lines of a listing. -/
structure LicenceListing where
  lines : List Text
  line : ∀ l ∈ lines, OneLine l

namespace LicenceListing

variable (L : LicenceListing)

/-- The printed listing. -/
def text : Text := unlines L.lines

/-- The number of lines with a presentation. -/
def lineCount (p : Text) : Nat := (presentations L.lines).count p

theorem alllic_text : alllic L.text = presentations L.lines :=
  alllic_unlines fun l hl => (L.line l hl).1

variable {L}

theorem newline_notMem {p : Text} (hp : p ∈ presentations L.lines) : '\n' ∉ p := by
  obtain ⟨l, hl, hlp⟩ := List.mem_filterMap.mp hp
  exact newline_notMem_of_presentation (L.line l hl).1 hlp

end LicenceListing

/-! ## Right numbers -/

/-- The value of `Usedkey` of an object. -/
def usedkey (object : Json) : Nat :=
  match object.get "Usedkey".toList with
  | some (.num n) => n
  | _ => 0

/-- The object of a presentation with the number of its lines. -/
def EntryFor (L : LicenceListing) (p : Text) (object : Json) : Prop :=
  ∃ q i n, parts p = some q ∧ object = (Licence.mk q (L.lineCount p)).json i n

/-- The mode does not fail, has one entry for each presentation, with the number of its
lines, and the numbers add up to the number of all lines with a presentation. -/
def UsageRight (E : PyRe) (L : LicenceListing) : Prop :=
  ∃ objects, licences E L.text = some objects ∧
    List.Forall₂ (EntryFor L) (firstSeen (presentations L.lines)) objects ∧
    (objects.map usedkey).sum = (presentations L.lines).length

variable {E : PyRe} {L : LicenceListing}

theorem usedkey_json (d : Licence) (i n : Nat) : usedkey (d.json i n) = d.Usedkey := by
  have hmem : ("Usedkey".toList, Json.num d.Usedkey) ∈ d.members i n := by
    simp only [Licence.members, List.mem_cons, true_or, or_true]
  rw [usedkey, Licence.json, Json.get_eq_some_of_mem (nodup_members d i n) hmem]

/-- The right numbers add up. -/
theorem sum_usedkey {objects : List Json}
    (h : List.Forall₂ (EntryFor L) (firstSeen (presentations L.lines)) objects) :
    (objects.map usedkey).sum = (presentations L.lines).length := by
  have hmap : ∀ {ps : List Text} {items : List Json}, List.Forall₂ (EntryFor L) ps items →
      items.map usedkey = ps.map L.lineCount := by
    intro ps items hitems
    induction hitems with
    | nil => rfl
    | cons hentry _ ih =>
      obtain ⟨q, i, n, -, rfl⟩ := hentry
      rw [List.map_cons, List.map_cons, usedkey_json, ih]
  rw [hmap h, ← sum_count_firstSeen (presentations L.lines)]
  rfl

/-- The object that the mode makes of a presentation. -/
theorem entryFor_json_iff {p : Text} {d : Licence} (hparts : parts p = some d.toParts) (i n : Nat) :
    EntryFor L p (d.json i n) ↔ d.Usedkey = L.lineCount p := by
  constructor
  · rintro ⟨q, j, m, -, hjson⟩
    have hd := Licence.eq_of_json (congrArg Json.sortKeys hjson)
    rw [hd]
  · intro hused
    refine ⟨d.toParts, i, n, hparts, ?_⟩
    rw [← hused]

/-- What the mode does when all presentations are read. -/
theorem usageRight_iff_of_read {f : Text → Licence}
    (hf : ∀ p ∈ presentations L.lines, licence E L.text p = some (f p)) :
    UsageRight E L ↔ ∀ p ∈ presentations L.lines, (f p).Usedkey = L.lineCount p := by
  obtain ⟨n, hn⟩ := exists_count_licensePath (E := E) L.text
  have hsome := licences_eq_some (E := E) (f := f) hn (by rwa [L.alllic_text])
  rw [L.alllic_text, jsons, List.map_map] at hsome
  have hentry : ∀ p ∈ firstSeen (presentations L.lines), ∀ i, EntryFor L p
      (((fun p : Licence × Nat => p.1.json p.2 (roundHalf n)) ∘ fun p => (f p.1, p.2)) (p, i)) ↔
        (f p).Usedkey = L.lineCount p := by
    intro p hp i
    exact entryFor_json_iff (licence_eq_some_iff.mp (hf p (mem_firstSeen.mp hp))).1 i _
  have hall := forall₂_zipIdx_iff hentry 0
  simp only [mem_firstSeen] at hall
  rw [← hall]
  constructor
  · rintro ⟨objects, hobjects, hentries, -⟩
    rw [hsome] at hobjects
    rwa [← Option.some.inj hobjects] at hentries
  · intro hentries
    exact ⟨_, hsome, hentries, sum_usedkey hentries⟩

/-- Where the numbers are right, every presentation is read. -/
theorem UsageRight.exists_licence (h : UsageRight E L) {p : Text}
    (hp : p ∈ presentations L.lines) : ∃ d, licence E L.text p = some d := by
  cases hl : licence E L.text p with
  | some d => exact ⟨d, rfl⟩
  | none =>
    obtain ⟨objects, hobjects, -⟩ := h
    rw [licences_eq_none (by rwa [L.alllic_text]) hl] at hobjects
    cases hobjects

/-- The numbers are right when each presentation has its parts and is found as often as
it has lines. -/
theorem usageRight_iff_count : UsageRight E L ↔
    ∀ p ∈ presentations L.lines,
      (parts p).isSome ∧ E.count p L.text = some (L.lineCount p) := by
  constructor
  · intro h p hp
    have : Inhabited Licence := ⟨⟨⟨[], [], [], []⟩, 0⟩⟩
    choose! f hf using fun (p : Text) (hp : p ∈ presentations L.lines) => h.exists_licence hp
    obtain ⟨hparts, hcount⟩ := licence_eq_some_iff.mp (hf p hp)
    refine ⟨Option.isSome_iff_exists.mpr ⟨_, hparts⟩, ?_⟩
    rw [hcount, (usageRight_iff_of_read hf).mp h p hp]
  · intro h
    have : Inhabited Licence := ⟨⟨⟨[], [], [], []⟩, 0⟩⟩
    have hexists : ∀ p ∈ presentations L.lines, ∃ d : Licence,
        licence E L.text p = some d ∧ d.Usedkey = L.lineCount p := by
      intro p hp
      obtain ⟨hparts, hcount⟩ := h p hp
      obtain ⟨q, hq⟩ := Option.isSome_iff_exists.mp hparts
      exact ⟨⟨q, L.lineCount p⟩, licence_eq_some_iff.mpr ⟨hq, hcount⟩, rfl⟩
    choose! f hf using hexists
    exact (usageRight_iff_of_read fun p hp => (hf p hp).1).mpr fun p hp => (hf p hp).2

/-- A presentation that is no pattern ends the mode with an error. -/
theorem not_usageRight_of_invalid {p : Text} (hp : p ∈ presentations L.lines)
    (hpossessive : Regex.possessive p = false) (hparse : Regex.parsePython p = .invalid) :
    ¬UsageRight E L := by
  intro h
  have hcount := (usageRight_iff_count.mp h p hp).2
  rw [PyRe.count, E.findall_invalid p _ hpossessive hparse] at hcount
  cases hcount

/-! ## Presentations that find themselves -/

/-- A presentation is a valid expression, and what it finds on the lines one by one is
its own text as often as there are lines with it. -/
def FindsItself (L : LicenceListing) (p : Text) : Prop :=
  ∃ r : Regex, r.Proper ∧ Regex.parsePython p = .pattern r ∧
    (L.lines.map fun l => (Regex.listed p r l).count (some p)).sum = L.lineCount p

/-- What a presentation that finds itself counts. -/
theorem FindsItself.count_eq {p : Text} (hp : p ∈ presentations L.lines) (hne : p ≠ [])
    (h : FindsItself L p) : E.count p L.text = some (L.lineCount p) := by
  obtain ⟨r, hproper, hparse, hfound⟩ := h
  rw [LicenceListing.text,
    PyRe.count_unlines hne (LicenceListing.newline_notMem hp) hproper hparse, hfound]

/-- A modelled presentation that is counted well finds itself. -/
theorem findsItself_of_count_eq {p : Text} (hp : p ∈ presentations L.lines) (hne : p ≠ [])
    (hmodelled : Modelled p) (h : E.count p L.text = some (L.lineCount p)) : FindsItself L p := by
  cases hmodelled with
  | invalid possessive parse =>
    rw [PyRe.count, E.findall_invalid _ _ possessive parse] at h
    cases h
  | pattern r proper parse =>
    rw [LicenceListing.text,
      PyRe.count_unlines hne (LicenceListing.newline_notMem hp) proper parse] at h
    exact ⟨r, proper, parse, Option.some.inj h⟩

/-- The numbers are right when every presentation has its parts and finds itself on its
lines; for modelled presentations they are right in no other case. -/
theorem usageRight_iff (E : PyRe) (L : LicenceListing) :
    ((∀ p ∈ presentations L.lines, (parts p).isSome ∧ FindsItself L p) → UsageRight E L) ∧
      ((∀ p ∈ presentations L.lines, Modelled p) → UsageRight E L →
        ∀ p ∈ presentations L.lines, (parts p).isSome ∧ FindsItself L p) := by
  constructor
  · intro h
    refine usageRight_iff_count.mpr fun p hp => ?_
    obtain ⟨hparts, hfinds⟩ := h p hp
    exact ⟨hparts, hfinds.count_eq hp (ne_nil_of_parts hparts)⟩
  · intro hmodelled h p hp
    obtain ⟨hparts, hcount⟩ := usageRight_iff_count.mp h p hp
    exact ⟨hparts,
      findsItself_of_count_eq hp (ne_nil_of_parts hparts) (hmodelled p hp) hcount⟩

/-! ## Letters and dots -/

/-- The parts of a presentation lie between commas. -/
theorem comma_mem_of_parts {p : Text} (h : (parts p).isSome) : ',' ∈ p := by
  by_contra hcomma
  have hitem : item 1 1 p = none := by
    rw [item, piece, List.splitOn_eq_singleton hcomma]
    rfl
  rw [parts, hitem] at h
  cases h

/-- What a text of letters and dots finds on a line with it, and on the others. -/
theorem count_listed_literal {l p : Text} (hp : (parts p).isSome) (hbreak : '\n' ∉ p)
    (hdots : Regex.WithDots p) (hown : presentation l = some p → l = fullPresentation ++ p)
    (hother : presentation l ≠ some p → ¬p <:+: l) :
    (Regex.listed p (Regex.literal (Regex.dotEq fun x y => x == y) p) l).count (some p) =
      if presentation l = some p then 1 else 0 := by
  rw [Regex.listed, Regex.groupCount_withDots hdots]
  split_ifs with hl
  · rw [hown hl, Regex.findall_append_self (x := ',') (by decide) (by decide)
      (comma_mem_of_parts hp) hbreak, List.map_singleton]
    exact List.count_singleton_self
  · rw [List.count_eq_zero]
    intro hmem
    obtain ⟨c, hc, htext⟩ := List.mem_map.mp hmem
    have hinfix := Regex.infix_of_mem_findall hc 0
    rw [Option.some.inj htext] at hinfix
    exact hother hl hinfix

/-- A text of letters and dots that occurs on its own lines only finds itself. -/
theorem findsItself_of_withDots {p : Text} (hp : p ∈ presentations L.lines)
    (hparts : (parts p).isSome) (hdots : Regex.WithDots p)
    (hown : ∀ l ∈ L.lines, presentation l = some p → l = fullPresentation ++ p)
    (hother : ∀ l ∈ L.lines, presentation l ≠ some p → ¬p <:+: l) : FindsItself L p := by
  refine ⟨_, Regex.proper_literal _ p, Regex.parsePython_withDots hdots, ?_⟩
  have hsum : ∀ ls : List Text, (∀ l ∈ ls, l ∈ L.lines) → (ls.map fun l =>
      (Regex.listed p (Regex.literal (Regex.dotEq fun x y => x == y) p) l).count (some p)).sum =
        (presentations ls).count p := by
    intro ls hls
    induction ls with
    | nil => rfl
    | cons l ls ih =>
      have hl := hls l List.mem_cons_self
      rw [List.map_cons, List.sum_cons, ih fun m hm => hls m (List.mem_cons_of_mem l hm),
        count_listed_literal hparts (LicenceListing.newline_notMem hp) hdots
          (hown l hl) (hother l hl)]
      cases hpres : presentation l with
      | none =>
        rw [presentations, presentations, List.filterMap_cons_none hpres, if_neg (by simp),
          Nat.zero_add]
      | some q =>
        rw [presentations, presentations, List.filterMap_cons_some hpres, List.count_cons,
          Nat.add_comm]
        simp only [Option.some.injEq, beq_iff_eq]
  exact hsum L.lines fun _ hl => hl

/-! ## A server with parentheses in its name -/

/-- One session with a licence of the server `Server (main)`. -/
def parenthesesListing : LicenceListing where
  lines := ["full-presentation  : Server (main), 5340, 8101922464 100 100".toList]
  line := by decide +kernel

/-- The licence is reported as not used. -/
theorem parenthesesListing_not_usageRight : ¬UsageRight PyRe.core parenthesesListing := by
  intro h
  have hcount := (usageRight_iff_count.mp h " Server (main), 5340, 8101922464 100 100".toList
    (by decide +kernel)).2
  revert hcount
  decide +kernel

end OpsScripts.OneC
