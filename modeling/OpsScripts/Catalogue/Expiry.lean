import Mathlib.Data.Char
import Mathlib.Data.List.Lex
import OpsScripts.Catalogue.VeeamAgent
import OpsScripts.Catalogue.Sep

/-!
# What the removals leave

The three removals work on any catalogue, also on one that was edited by hand. The first one
compares dates for equality, so entries that share the newest date of their name all stay; the
last one uses names as patterns, so an outdated entry goes only if some name matches its own.
`SEP.ps1` looks for the name of the element in the first removal and never sees a duplicate.
-/

namespace OpsScripts.Catalogue

/-! ## Dated entries -/

/-- An entry with its time. -/
structure Dated where
  name : Text
  result : Text
  date : DateTime
  deriving DecidableEq

/-- The entry in the catalogue. -/
def Dated.entry (e : Dated) : Entry := ⟨e.name, e.result, e.date.format⟩

theorem Dated.entry_injective : Function.Injective Dated.entry := by
  intro a b h
  obtain ⟨hname, hresult, hdate⟩ := Entry.mk.inj h
  cases a
  cases b
  simp only [Dated.mk.injEq]
  exact ⟨hname, hresult, DateTime.format_injective hdate⟩

/-- The time is at or after the limit. -/
def Within (limit : DateTime) (e : Dated) : Prop := limit.stamp ≤ e.date.stamp

instance (limit : DateTime) : DecidablePred (Within limit) :=
  fun e => inferInstanceAs (Decidable (limit.stamp ≤ e.date.stamp))

section Phases

variable [Culture]

/-- The name up to case. -/
def Dated.key (e : Dated) : Text := toLower e.name

/-- No entry of the name has a later time. -/
def Newest (c : List Dated) (e : Dated) : Prop :=
  ∀ f ∈ c, f.key = e.key → f.date.stamp ≤ e.date.stamp

instance (c : List Dated) : DecidablePred (Newest c) :=
  fun e => inferInstanceAs (Decidable (∀ f ∈ c, f.key = e.key → f.date.stamp ≤ e.date.stamp))

/-- The removals of `ExportXml`. -/
def cleanUp (dead : Entry → Entry → Bool) (limit : Text) (c : List Entry) : List Entry :=
  removeOld limit (removeDefault (removeDuplicates dead c))

theorem VeeamAgent.exportXml_eq_cleanUp (parseDate : Text → Option DateTime)
    (run : VeeamAgent.Run) (c : List Entry) :
    VeeamAgent.exportXml parseDate run c =
      cleanUp VeeamAgent.dead run.todeleteDate.format
        ((VeeamAgent.items parseDate VeeamAgent.unset run.mails).foldl exportItem c) := rfl

theorem Sep.exportXml_eq_cleanUp (run : Sep.Run) (f : Sep.File) :
    (Sep.exportXml run f).sep = cleanUp Sep.dead run.clock.todeleteDate.format
      ((Sep.items run).foldl exportItem f.sep) := rfl

/-- What is left of a catalogue: for every name but the one of the template that has an entry
within the limit one entry, which is a newest one of its name and within the limit, and
nothing else. -/
structure Expired (limit : DateTime) (c left : List Dated) : Prop where
  newest : ∀ e ∈ left, e ∈ c ∧ e.key ≠ defaultKey ∧ Within limit e ∧ Newest c e
  unique : ∀ e ∈ c, e.key ≠ defaultKey → Within limit e →
    ∃ e', (left.filter fun f => f.key = e.key) = [e']

/-- The removals of a script leave the right entries. -/
def Expires (dead : Entry → Entry → Bool) (limit : DateTime) (c : List Dated) : Prop :=
  ∃ left, cleanUp dead limit.format (c.map Dated.entry) = left.map Dated.entry ∧
    Expired limit c left

/-! ## What stays -/

section Stays

variable (kept : Dated → Prop) (limit : DateTime) (c : List Dated)

/-- An entry behind the removal of the template. -/
def Named (e : Dated) : Prop := kept e ∧ e.key ≠ defaultKey

instance [DecidablePred kept] : DecidablePred (Named kept) :=
  fun e => inferInstanceAs (Decidable (kept e ∧ e.key ≠ defaultKey))

/-- An outdated entry matches the name and has the date. -/
def Taken (e : Dated) : Prop :=
  ∃ old ∈ c, Named kept old ∧ ¬Within limit old ∧ old.date = e.date ∧
    like old.name e.name = true

instance [DecidablePred kept] : DecidablePred (Taken kept limit c) := fun e =>
  inferInstanceAs (Decidable (∃ old ∈ c, Named kept old ∧ ¬Within limit old ∧
    old.date = e.date ∧ like old.name e.name = true))

/-- An entry that no removal takes. -/
def Stays (e : Dated) : Prop := Named kept e ∧ (Within limit e ∨ ¬Taken kept limit c e)

instance [DecidablePred kept] : DecidablePred (Stays kept limit c) :=
  fun e => inferInstanceAs (Decidable (Named kept e ∧ (Within limit e ∨ ¬Taken kept limit c e)))

/-- What the removals do right: the first one keeps the newest entries within the limit and
no two of a name, and the last one takes every outdated entry. -/
structure Settled : Prop where
  newest : ∀ e ∈ c, e.key ≠ defaultKey → Newest c e → Within limit e → kept e
  single : c.Pairwise fun a b => a.key = b.key → Named kept a → Named kept b →
    Within limit a → ¬Within limit b
  outdated : ∀ e ∈ c, Named kept e → ¬Within limit e → Taken kept limit c e

end Stays

/-! ## The first removal -/

/-- The first entry of a group is a newest one of its name. -/
theorem not_lt_of_mem_groups {c : List Entry} {g e : Entry} (hg : g ∈ groups c) (he : e ∈ c)
    (hkey : store.key e = store.key g) : ¬g.date < e.date := by
  have hfirst : ∀ {es : List Entry}, es.Pairwise (fun a b => newestFirst a b = true) →
      ∀ g ∈ groupObject es, ∀ e ∈ es, store.key e = store.key g → ¬g.date < e.date := by
    intro es hes
    induction es with
    | nil => exact fun g hg => absurd hg List.not_mem_nil
    | cons a es ih =>
      obtain ⟨ha, hes⟩ := List.pairwise_cons.mp hes
      intro g hg e he hkey
      rcases List.mem_cons.mp hg with rfl | hg
      · rcases List.mem_cons.mp he with rfl | he
        · exact List.lt_irrefl _
        · simpa [newestFirst] using ha e he
      · obtain ⟨hg, hother⟩ := List.mem_filter.mp hg
        rcases List.mem_cons.mp he with rfl | he
        · rw [Bool.not_eq_true', ← Bool.not_eq_true, eqIgnoreCase_iff] at hother
          exact absurd hkey.symm hother
        · exact ih hes g hg e he hkey
  have hsorted : (c.mergeSort newestFirst).Pairwise fun a b => newestFirst a b = true := by
    refine List.pairwise_mergeSort (fun a b d hab hbd => ?_) (fun a b => ?_) c
    · simp only [newestFirst, Bool.not_eq_true', decide_eq_false_iff_not, not_lt] at hab hbd ⊢
      exact hbd.trans hab
    · simp only [newestFirst, Bool.or_eq_true, Bool.not_eq_true', decide_eq_false_iff_not, not_lt]
      exact le_total b.date a.date
  exact hfirst hsorted g hg e ((List.mergeSort_perm c newestFirst).mem_iff.mpr he) hkey

/-- The groups of dated entries. -/
theorem exists_newest_of_mem_groups {c : List Dated} {g : Entry}
    (hg : g ∈ groups (c.map Dated.entry)) : ∃ f ∈ c, f.entry = g ∧ Newest c f := by
  obtain ⟨f, hf, rfl⟩ := List.mem_map.mp (mem_of_mem_groups hg)
  refine ⟨f, hf, rfl, fun e he hkey => Nat.not_lt.mp fun hlt => ?_⟩
  exact not_lt_of_mem_groups hg (List.mem_map_of_mem he) hkey
    ((DateTime.format_lt_format _ _).mpr hlt)

/-- Every name has a group. -/
theorem exists_mem_groups_newest {c : List Dated} {e : Dated} (he : e ∈ c) :
    ∃ f ∈ c, f.entry ∈ groups (c.map Dated.entry) ∧ f.key = e.key ∧ Newest c f := by
  obtain ⟨g, hg, hkey⟩ := exists_mem_groups (List.mem_map_of_mem (f := Dated.entry) he)
  obtain ⟨f, hf, rfl, hnewest⟩ := exists_newest_of_mem_groups hg
  exact ⟨f, hf, hg, hkey, hnewest⟩

/-- Newest entries of one name have one time. -/
theorem Newest.date_eq {c : List Dated} {e f : Dated} (he : e ∈ c) (hf : f ∈ c)
    (hnewest : Newest c e) (hnewest' : Newest c f) (hkey : e.key = f.key) : e.date = f.date :=
  DateTime.stamp_injective
    (Nat.le_antisymm (hnewest' e he hkey) (hnewest f hf hkey.symm))

/-- A pattern made of a formatted time matches this time only. -/
theorem like_format_iff (d d' : DateTime) : like d.format d'.format = true ↔ d = d' := by
  rw [like_iff_of_stable (stable_format d) (stable_format d')]
  exact DateTime.format_injective.eq_iff

/-- A name keeps its newest entries in `VeeamAgentFreeToZabbix.ps1`. -/
theorem VeeamAgent.keeps_iff {c : List Dated} {e : Dated} (he : e ∈ c) :
    ((groups (c.map Dated.entry)).all fun g => !VeeamAgent.dead g e.entry) = true ↔
      Newest c e := by
  have hdead : ∀ f : Dated, (!VeeamAgent.dead f.entry e.entry) = true ↔
      (f.key = e.key → f.date = e.date) := by
    intro f
    rw [VeeamAgent.dead, Bool.not_and, Bool.not_not, Bool.or_eq_true, Bool.not_eq_true',
      ← Bool.not_eq_true, eqIgnoreCase_iff, ← imp_iff_not_or]
    exact imp_congr_right fun _ => like_format_iff _ _
  rw [List.all_eq_true]
  constructor
  · intro hall f hf hkey
    obtain ⟨g, hg, hmem, hkey', hnewest⟩ := exists_mem_groups_newest he
    rw [← (hdead g).mp (hall _ hmem) hkey']
    exact hnewest f hf (hkey.trans hkey'.symm)
  · intro hnewest g hg
    obtain ⟨f, hf, rfl, hnewest'⟩ := exists_newest_of_mem_groups hg
    exact (hdead f).mpr fun hkey => hnewest'.date_eq hf he hnewest hkey

/-- The entries that the first removal of `SEP.ps1` keeps: all but those with another time than
the newest entries of a version called like the elements. -/
def Sep.Kept (c : List Dated) (e : Dated) : Prop :=
  ∀ g ∈ c, g.key = Sep.sepKey → Newest c g → g.date = e.date

instance (c : List Dated) : DecidablePred (Sep.Kept c) := fun e =>
  inferInstanceAs (Decidable (∀ g ∈ c, g.key = Sep.sepKey → Newest c g → g.date = e.date))

theorem Sep.keeps_iff {c : List Dated} (e : Dated) :
    ((groups (c.map Dated.entry)).all fun g => !Sep.dead g e.entry) = true ↔ Sep.Kept c e := by
  have hdead : ∀ f : Dated, (!Sep.dead f.entry e.entry) = true ↔
      (f.key = Sep.sepKey → f.date = e.date) := by
    intro f
    rw [Sep.dead, Sep.deadElement, Bool.not_and, Bool.not_not, Bool.or_eq_true,
      Bool.not_eq_true', ← Bool.not_eq_true, eqIgnoreCase_iff, ← imp_iff_not_or]
    exact imp_congr_right fun _ => like_format_iff _ _
  rw [List.all_eq_true]
  constructor
  · intro hall g hg hkey hnewest
    obtain ⟨f, hf, hmem, hkey', hnewest'⟩ := exists_mem_groups_newest hg
    rw [← (hdead f).mp (hall _ hmem) (hkey'.trans hkey)]
    exact hnewest.date_eq hg hf hnewest' hkey'.symm
  · intro hkept g hg
    obtain ⟨f, hf, rfl, hnewest⟩ := exists_newest_of_mem_groups hg
    exact (hdead f).mpr fun hkey => hkept f hf hkey hnewest

/-! ## All removals -/

section CleanUp

variable {dead : Entry → Entry → Bool} {kept : Dated → Prop} [DecidablePred kept] {c : List Dated}
  (hkept : ∀ e ∈ c, ((groups (c.map Dated.entry)).all fun g => !dead g e.entry) = true ↔ kept e)

include hkept

/-- The entries that no removal takes are left. -/
theorem cleanUp_eq (limit : DateTime) : cleanUp dead limit.format (c.map Dated.entry) =
    (c.filter fun e => Stays kept limit c e).map Dated.entry := by
  have hnamed : removeDefault (removeDuplicates dead (c.map Dated.entry)) =
      (c.filter fun e => Named kept e).map Dated.entry := by
    rw [removeDuplicates_eq, removeDefault, List.filter_map, List.filter_map, List.filter_filter]
    refine congrArg _ (List.filter_congr fun e he => ?_)
    rw [Bool.eq_iff_iff, Bool.and_eq_true, decide_eq_true_eq, Named, and_comm]
    refine and_congr (hkept e he) ?_
    rw [Function.comp_apply, Bool.not_eq_true', ← Bool.not_eq_true, eqIgnoreCase_iff]
    exact not_congr eq_comm
  have haged : ∀ e : Dated, aged limit.format ((c.filter fun e => Named kept e).map Dated.entry)
      e.entry = true ↔ ¬Within limit e ∧ Taken kept limit c e := by
    intro e
    rw [aged, List.any_map, List.any_eq_true]
    constructor
    · rintro ⟨old, hold, htakes⟩
      obtain ⟨hmem, hnamed⟩ := List.mem_filter.mp hold
      rw [Function.comp_apply, Bool.and_eq_true, Bool.and_eq_true, decide_eq_true_eq] at htakes
      obtain ⟨hlt, hname, hdate⟩ := htakes
      have hout : ¬Within limit old := Nat.not_le.mpr ((DateTime.format_lt_format _ _).mp hlt)
      have hdate' : old.date = e.date := (like_format_iff _ _).mp hdate
      refine ⟨?_, old, hmem, of_decide_eq_true hnamed, hout, hdate', hname⟩
      rwa [Within, ← hdate']
    · rintro ⟨-, old, hmem, hnamed, hout, hdate, hname⟩
      refine ⟨old, List.mem_filter.mpr ⟨hmem, decide_eq_true hnamed⟩, ?_⟩
      rw [Function.comp_apply, Bool.and_eq_true, Bool.and_eq_true, decide_eq_true_eq]
      exact ⟨(DateTime.format_lt_format _ _).mpr (Nat.not_le.mp hout), hname,
        (like_format_iff _ _).mpr hdate⟩
  rw [cleanUp, hnamed, removeOld_eq, List.filter_map, List.filter_filter]
  refine congrArg _ (List.filter_congr fun e _ => ?_)
  rw [Bool.eq_iff_iff, Bool.and_eq_true, decide_eq_true_eq, decide_eq_true_eq, Stays, and_comm]
  refine and_congr_right fun _ => ?_
  rw [Function.comp_apply, Bool.not_eq_true', ← Bool.not_eq_true, haged, not_and_or, not_not]

/-- What is left is right exactly if the entries that stay are the right ones. -/
theorem expires_iff_expired (limit : DateTime) :
    Expires dead limit c ↔ Expired limit c (c.filter fun e => Stays kept limit c e) := by
  constructor
  · rintro ⟨left, heq, h⟩
    rw [cleanUp_eq hkept] at heq
    rwa [List.map_injective_iff.mpr Dated.entry_injective heq]
  · exact fun h => ⟨_, cleanUp_eq hkept limit, h⟩

end CleanUp

section Settled

variable {kept : Dated → Prop} [DecidablePred kept] {c : List Dated} {limit : DateTime}

/-- A name with an entry has a newest one. -/
theorem exists_newest {e : Dated} (he : e ∈ c) :
    ∃ f ∈ c, f.key = e.key ∧ Newest c f ∧ e.date.stamp ≤ f.date.stamp := by
  obtain ⟨f, hf, -, hkey, hnewest⟩ := exists_mem_groups_newest he
  exact ⟨f, hf, hkey, hnewest, hnewest e he hkey.symm⟩

theorem mem_left_iff {e : Dated} :
    e ∈ (c.filter fun e => Stays kept limit c e) ↔ e ∈ c ∧ Stays kept limit c e := by
  rw [List.mem_filter, decide_eq_true_eq]

/-- Where there is one entry for a name, no two of them stay within the limit. -/
theorem Expired.single (h : Expired limit c (c.filter fun e => Stays kept limit c e)) :
    c.Pairwise fun a b => a.key = b.key → Named kept a → Named kept b →
      Within limit a → ¬Within limit b := by
  rw [List.pairwise_iff_forall_sublist]
  intro a b hsub hkey ha hb hwithin hwithin'
  have hmem : a ∈ c := hsub.subset List.mem_cons_self
  obtain ⟨e', he'⟩ := h.unique a hmem ha.2 hwithin
  have hstays : ([a, b].filter fun e => Stays kept limit c e) = [a, b] := by
    have hleft : Stays kept limit c a := ⟨ha, Or.inl hwithin⟩
    have hright : Stays kept limit c b := ⟨hb, Or.inl hwithin'⟩
    simp [hleft, hright]
  have hboth := (hsub.filter fun e => Stays kept limit c e).filter fun f => f.key = a.key
  rw [hstays, he'] at hboth
  simp [hkey] at hboth

omit [DecidablePred kept] in
/-- An entry that stays is within the limit, if every outdated one is taken. -/
theorem Settled.within (h : Settled kept limit c) {e : Dated} (he : e ∈ c)
    (hstays : Stays kept limit c e) : Within limit e := by
  by_contra hout
  exact hstays.2.elim hout fun htaken => htaken (h.outdated e he hstays.1 hout)

/-- One entry is left for a name within the limit. -/
theorem Settled.unique (h : Settled kept limit c) {e : Dated} (he : e ∈ c)
    (hkey : e.key ≠ defaultKey) (hwithin : Within limit e) :
    ∃ e', ((c.filter fun f => Stays kept limit c f).filter fun f => f.key = e.key) = [e'] := by
  obtain ⟨f, hf, hfkey, hnewest, hle⟩ := exists_newest he
  have hfdefault : f.key ≠ defaultKey := hfkey ▸ hkey
  have hfwithin : Within limit f := le_trans hwithin hle
  have hstays : Stays kept limit c f :=
    ⟨⟨h.newest f hf hfdefault hnewest hfwithin, hfdefault⟩, Or.inl hfwithin⟩
  have hmem : f ∈ (c.filter fun f => Stays kept limit c f).filter fun f => f.key = e.key :=
    List.mem_filter.mpr ⟨mem_left_iff.mpr ⟨hf, hstays⟩, decide_eq_true hfkey⟩
  have hnone : ((c.filter fun f => Stays kept limit c f).filter fun f => f.key = e.key).Pairwise
      fun _ _ => False := by
    refine ((h.single.filter _).filter _).imp_of_mem fun ha hb hab => ?_
    obtain ⟨ha, hakey⟩ := List.mem_filter.mp ha
    obtain ⟨hb, hbkey⟩ := List.mem_filter.mp hb
    obtain ⟨hac, hastays⟩ := mem_left_iff.mp ha
    obtain ⟨hbc, hbstays⟩ := mem_left_iff.mp hb
    rw [decide_eq_true_eq] at hakey hbkey
    exact hab (hakey.trans hbkey.symm) hastays.1 hbstays.1 (h.within hac hastays)
      (h.within hbc hbstays)
  cases hlist : (c.filter fun f => Stays kept limit c f).filter fun f => f.key = e.key with
  | nil =>
    rw [hlist] at hmem
    cases hmem
  | cons e' es =>
    rw [hlist, List.pairwise_cons] at hnone
    exact ⟨e', by rw [List.eq_nil_iff_forall_not_mem.mpr hnone.1]⟩

/-- An entry that stays is a newest one of its name. -/
theorem Settled.newest_of_stays (h : Settled kept limit c) {e : Dated} (he : e ∈ c)
    (hstays : Stays kept limit c e) : Newest c e := by
  have hwithin := h.within he hstays
  obtain ⟨f, hf, hfkey, hnewest, hle⟩ := exists_newest he
  have hfdefault : f.key ≠ defaultKey := hfkey ▸ hstays.1.2
  have hfwithin : Within limit f := le_trans hwithin hle
  have hfstays : Stays kept limit c f :=
    ⟨⟨h.newest f hf hfdefault hnewest hfwithin, hfdefault⟩, Or.inl hfwithin⟩
  obtain ⟨e', he'⟩ := h.unique he hstays.1.2 hwithin
  have hone : ∀ {g : Dated}, g ∈ c → Stays kept limit c g → g.key = e.key → g = e' := by
    intro g hg hgstays hgkey
    rw [← List.mem_singleton, ← he']
    exact List.mem_filter.mpr ⟨mem_left_iff.mpr ⟨hg, hgstays⟩, decide_eq_true hgkey⟩
  rwa [hone he hstays rfl, ← hone hf hfstays hfkey]

/-- The right entries are left exactly if each removal does its part. -/
theorem expired_iff (hsame : ∀ e f, e.key = f.key → e.date = f.date → kept e → kept f) :
    Expired limit c (c.filter fun e => Stays kept limit c e) ↔ Settled kept limit c := by
  constructor
  · intro h
    refine ⟨fun e he hkey hnewest hwithin => ?_, h.single, fun e he hnamed hout => ?_⟩
    · obtain ⟨e', he'⟩ := h.unique e he hkey hwithin
      obtain ⟨hmem, hkey'⟩ := List.mem_filter.mp (he' ▸ List.mem_singleton_self e')
      rw [decide_eq_true_eq] at hkey'
      obtain ⟨hc, -, -, hnewest'⟩ := h.newest e' hmem
      exact hsame e' e hkey' (hnewest'.date_eq hc he hnewest hkey') (mem_left_iff.mp hmem).2.1.1
    · by_contra htaken
      have hmem : e ∈ c.filter fun e => Stays kept limit c e :=
        mem_left_iff.mpr ⟨he, hnamed, Or.inr htaken⟩
      exact hout (h.newest e hmem).2.2.1
  · intro h
    refine ⟨fun e hmem => ?_, fun e he hkey hwithin => h.unique he hkey hwithin⟩
    obtain ⟨he, hstays⟩ := mem_left_iff.mp hmem
    exact ⟨he, hstays.1.2, h.within he hstays, h.newest_of_stays he hstays⟩

/-- A script is right exactly if each of its removals does its part. -/
theorem expires_iff_settled {dead : Entry → Entry → Bool}
    (hkept : ∀ e ∈ c, ((groups (c.map Dated.entry)).all fun g => !dead g e.entry) = true ↔ kept e)
    (hsame : ∀ e f, e.key = f.key → e.date = f.date → kept e → kept f) :
    Expires dead limit c ↔ Settled kept limit c :=
  (expires_iff_expired hkept limit).trans (expired_iff hsame)

end Settled

/-- What stays depends on the name and the time only. -/
theorem VeeamAgent.expires_iff_settled (limit : DateTime) (c : List Dated) :
    Expires VeeamAgent.dead limit c ↔ Settled (Newest c) limit c := by
  refine Catalogue.expires_iff_settled (fun e he => VeeamAgent.keeps_iff he) ?_
  intro e f hkey hdate hnewest g hg hgkey
  rw [← hdate]
  exact hnewest g hg (hgkey.trans hkey.symm)

theorem Sep.expires_iff_settled (limit : DateTime) (c : List Dated) :
    Expires Sep.dead limit c ↔ Settled (Sep.Kept c) limit c := by
  refine Catalogue.expires_iff_settled (fun e _ => Sep.keeps_iff e) ?_
  intro e f _ hdate hkept g hg hkey hnewest
  exact (hkept g hg hkey hnewest).trans hdate

/-- Without duplicates and with names that match themselves, `VeeamAgentFreeToZabbix.ps1` leaves
the right entries. -/
theorem VeeamAgent.expires_of_nodup (limit : DateTime) {c : List Dated}
    (hnodup : (c.map Dated.key).Nodup) (hself : ∀ e ∈ c, like e.name e.name = true) :
    Expires VeeamAgent.dead limit c := by
  rw [VeeamAgent.expires_iff_settled]
  refine ⟨fun _ _ _ hnewest _ => hnewest, ?_, fun e he hnamed hout => ?_⟩
  · rw [List.nodup_iff_pairwise_ne, List.pairwise_map] at hnodup
    exact hnodup.imp fun hne heq => absurd heq hne
  · exact ⟨e, he, hnamed, hout, rfl, hself e he⟩

/-- For every catalogue and every limit, `VeeamAgentFreeToZabbix.ps1` leaves the right entries
exactly if no two newest entries of a name are within the limit and every outdated newest one is
matched by a name; `SEP.ps1` does exactly if that holds of the entries that a version called
`sep` does not remove, and it removes no newest entry within the limit. -/
theorem expires_iff (limit : DateTime) (c : List Dated) :
    (Expires VeeamAgent.dead limit c ↔ Settled (Newest c) limit c) ∧
      (Expires Sep.dead limit c ↔ Settled (Sep.Kept c) limit c) :=
  ⟨VeeamAgent.expires_iff_settled limit c, Sep.expires_iff_settled limit c⟩

end Phases

section Example

local instance asciiExpiry : Culture := Culture.ascii

/-- A version that was recorded twice. -/
def listedTwice : List Dated :=
  [⟨"14.3.558.0000".toList, "2".toList, DateTime.ofNat 2020 12 25 10 0⟩,
    ⟨"14.3.558.0000".toList, "3".toList, DateTime.ofNat 2020 12 25 11 0⟩]

/-- `SEP.ps1` leaves both entries. -/
theorem listedTwice_not_expires :
    ¬Expires Sep.dead (DateTime.ofNat 2020 12 25 9 0) listedTwice := by
  rw [Sep.expires_iff_settled]
  intro h
  have hpair := (List.pairwise_cons.mp h.single).1 _ List.mem_cons_self
  exact hpair rfl (by decide +kernel) (by decide +kernel) (by decide +kernel) (by decide +kernel)

/-- The newer entry is right where names are looked at. -/
example : Expires VeeamAgent.dead (DateTime.ofNat 2020 12 25 9 0) listedTwice := by
  rw [VeeamAgent.expires_iff_settled]
  refine ⟨fun _ _ _ hnewest _ => hnewest, ?_, ?_⟩
  · decide +kernel
  · decide +kernel

end Example

end OpsScripts.Catalogue
