import OpsScripts.Catalogue.VeeamAgent
import OpsScripts.Catalogue.Sep

/-!
# Completeness of the catalogues

Whether an item of a run gets its entry depends on what the runs before have left: a
new name needs two entries to clone from, and none of the other phases of the run may
take the entry away again.
-/

namespace OpsScripts.Catalogue

section Runs

variable [Culture]

/-- In the Veeam catalogue, the items of a run have their entries exactly if they do not
have the name of the template and each is known or finds two entries. -/
theorem VeeamAgent.complete_exportXml_iff (parseDate : Text → Option DateTime)
    (runs : List VeeamAgent.Run) (run : VeeamAgent.Run) :
    Complete run.todeleteDate (VeeamAgent.items parseDate VeeamAgent.unset run.mails)
        (VeeamAgent.exportXml parseDate run (VeeamAgent.catalogueAfter parseDate runs)) ↔
      ∀ k i, store.lastFor (VeeamAgent.items parseDate VeeamAgent.unset run.mails) k = some i →
        ¬ i.date < run.todeleteDate.format → k ≠ defaultKey ∧
          (store.Has (VeeamAgent.catalogueAfter parseDate runs) k ∨
            2 ≤ (VeeamAgent.catalogueAfter parseDate runs).length) := by
  rw [VeeamAgent.exportXml_catalogueAfter]
  have hready := VeeamAgent.ready_catalogueAfter parseDate runs
  have hrecorded := hready.recorded fun i
    (hi : i ∈ VeeamAgent.items parseDate VeeamAgent.unset run.mails) =>
      VeeamAgent.stable_of_mem_items parseDate stable_nil hi
  refine forall_congr' fun k => forall_congr' fun i => forall_congr' fun hlast =>
    forall_congr' fun hwithin => ?_
  constructor
  · intro hcarries
    obtain ⟨hroom, e, he, rfl, -⟩ := room_of_carries
      (VeeamAgent.remaining_sublist parseDate run _).subset hlast hcarries
    exact ⟨VeeamAgent.key_ne_of_mem_remaining parseDate he, hroom⟩
  · intro h
    obtain ⟨hk, hroom⟩ := h
    obtain ⟨e, he, hkey, hmem, hresult, hdate⟩ := hready.exists_entry hlast hk hroom
    refine ⟨e, ?_, hresult, hdate⟩
    rw [(store.mem_of_lastFor hlast).2]
    apply store.entriesOf_filter
    · apply store.entriesOf_filter he
      simpa [hkey] using hk
    · rw [hrecorded.not_aged List.filter_sublist.subset hmem (hdate ▸ hwithin)]
      rfl

/-- A Veeam catalogue with fewer than two entries never grows again. -/
theorem VeeamAgent.length_catalogueAfter_append_lt (parseDate : Text → Option DateTime)
    {runs : List VeeamAgent.Run} (h : (VeeamAgent.catalogueAfter parseDate runs).length < 2)
    (more : List VeeamAgent.Run) :
    (VeeamAgent.catalogueAfter parseDate (runs ++ more)).length < 2 := by
  induction more using List.reverseRecOn with
  | nil => rwa [List.append_nil]
  | append_singleton more run ih =>
    rw [← List.append_assoc, VeeamAgent.catalogueAfter_append,
      VeeamAgent.exportXml_catalogueAfter]
    have hle := (VeeamAgent.remaining_sublist parseDate run
      (VeeamAgent.catalogueAfter parseDate (runs ++ more))).length_le
    rw [store.length_recorded_of_lt ih] at hle
    omega

namespace Sep

/-- An antivirus catalogue with fewer than two versions never grows again. -/
theorem length_fileAfter_append_lt {runs : List Run} (h : (fileAfter runs).sep.length < 2)
    (more : List Run) : (fileAfter (runs ++ more)).sep.length < 2 := by
  induction more using List.reverseRecOn with
  | nil => rwa [List.append_nil]
  | append_singleton more run ih =>
    rw [← List.append_assoc, fileAfter_append, sep_exportXml_fileAfter]
    have hle := (remaining_sublist run (fileAfter (runs ++ more)).sep).length_le
    rw [store.length_recorded_of_lt ih] at hle
    omega

/-- A version called like the elements has an entry with another date, after the items of
a run have been recorded. -/
def TagClash (c is : List Entry) (date : Text) : Prop :=
  match store.lastFor is sepKey with
  | some j => (store.Has c sepKey ∨ 2 ≤ c.length) ∧ j.date ≠ date
  | none => ∃ e ∈ c, store.key e = sepKey ∧ e.date ≠ date

/-- Where such an entry can be. -/
theorem exists_recorded_sepKey_iff (c is : List Entry) (date : Text) :
    (∃ g ∈ store.recorded c is, store.key g = sepKey ∧ g.date ≠ date) ↔ TagClash c is date := by
  unfold TagClash
  cases hlast : store.lastFor is sepKey with
  | some j =>
    obtain ⟨hmem, hkey⟩ := store.mem_of_lastFor hlast
    have hhas := store.has_recorded_of_mem (c := c) hmem
    rw [hkey] at hhas
    have hdate : ∀ g ∈ store.recorded c is, store.key g = sepKey → g.date = j.date := by
      intro g hg hgkey
      obtain ⟨g₀, rfl⟩ := store.eq_change_of_mem_recorded hg (hgkey ▸ hlast)
      rfl
    constructor
    · intro h
      obtain ⟨g, hg, hgkey, hne⟩ := h
      exact ⟨hhas.mp ⟨g, hg, hgkey⟩, hdate g hg hgkey ▸ hne⟩
    · intro h
      obtain ⟨g, hg, hgkey⟩ := hhas.mpr h.1
      exact ⟨g, hg, hgkey, (hdate g hg hgkey).symm ▸ h.2⟩
  | none =>
    constructor
    · intro h
      obtain ⟨g, hg, hgkey, hne⟩ := h
      exact ⟨g, store.mem_of_mem_recorded hg (hgkey ▸ hlast), hgkey, hne⟩
    · intro h
      obtain ⟨e, he, hekey, hne⟩ := h
      have hsame : store.settle is e = e := by
        rw [CloneStore.settle, hekey, hlast]
      exact ⟨e, hsame ▸ store.settle_mem_recorded he, hekey, hne⟩

/-- The last item of a version has its entry after a run exactly if the version does not
have the name of the template, is known or finds two entries, and no version called `sep`
has an entry with another date. -/
theorem carries_exportXml_iff (runs : List Run) (run : Run) {k : Text} {i : Entry}
    (hlast : store.lastFor (items run) k = some i) :
    Carries (exportXml run (fileAfter runs)).sep i ↔ k ≠ defaultKey ∧
      (store.Has (fileAfter runs).sep k ∨ 2 ≤ (fileAfter runs).sep.length) ∧
      ¬ TagClash (fileAfter runs).sep (items run) i.date := by
  rw [sep_exportXml_fileAfter, ← exists_recorded_sepKey_iff]
  have hvalid := valid_fileAfter runs
  have hrecorded := (hvalid.recorded run).toReady
  constructor
  · intro hcarries
    obtain ⟨hroom, e, he, hkey, hdate⟩ := room_of_carries
      (remaining_sublist run _).subset hlast hcarries
    have hnamed := (List.mem_filter.mp (List.mem_filter.mp he).1).2
    rw [decide_eq_true_eq] at hnamed
    refine ⟨hkey ▸ hnamed.1, hroom, fun hclash => ?_⟩
    obtain ⟨g, hg, hgkey, hne⟩ := hclash
    exact hne ((hnamed.2 g hg hgkey).trans hdate)
  · intro h
    obtain ⟨hk, hroom, hclash⟩ := h
    obtain ⟨e, he, hkey, hmem, hresult, hdate⟩ := hvalid.toReady.exists_entry hlast hk hroom
    refine ⟨e, ?_, hresult, hdate⟩
    rw [(store.mem_of_lastFor hlast).2]
    apply store.entriesOf_filter
    · apply store.entriesOf_filter he
      rw [decide_eq_true_eq]
      refine ⟨hkey ▸ hk, fun g hg hgkey => ?_⟩
      by_contra hne
      exact hclash ⟨g, hg, hgkey, hdate ▸ hne⟩
    · have hwithin := not_lt_of_mem_items (store.mem_of_lastFor hlast).1
      rw [hrecorded.not_aged List.filter_sublist.subset hmem (hdate ▸ hwithin)]
      rfl

/-- In the antivirus catalogue, the items of a run have their entries exactly if this
holds of all of them. -/
theorem complete_exportXml_iff (runs : List Run) (run : Run) :
    Complete run.clock.todeleteDate (items run) (exportXml run (fileAfter runs)).sep ↔
      ∀ k i, store.lastFor (items run) k = some i → k ≠ defaultKey ∧
        (store.Has (fileAfter runs).sep k ∨ 2 ≤ (fileAfter runs).sep.length) ∧
        ¬ TagClash (fileAfter runs).sep (items run) i.date := by
  refine forall_congr' fun k => forall_congr' fun i => forall_congr' fun hlast => ?_
  rw [carries_exportXml_iff runs run hlast]
  have hwithin := not_lt_of_mem_items (store.mem_of_lastFor hlast).1
  exact ⟨fun h => h hwithin, fun h _ => h⟩

end Sep

/-- For all catalogues that runs make from the templates and every further run, each
item of the run within the limit has its entry exactly if none is called `default`, each
is known or finds two entries to clone from, and, in the antivirus catalogue, no version
called `sep` has an entry with another date. -/
theorem catalogues_complete_iff (parseDate : Text → Option DateTime) :
    (∀ (runs : List VeeamAgent.Run) (run : VeeamAgent.Run),
      Complete run.todeleteDate (VeeamAgent.items parseDate VeeamAgent.unset run.mails)
        (VeeamAgent.exportXml parseDate run (VeeamAgent.catalogueAfter parseDate runs)) ↔
      ∀ k i, store.lastFor (VeeamAgent.items parseDate VeeamAgent.unset run.mails) k = some i →
        ¬ i.date < run.todeleteDate.format → k ≠ defaultKey ∧
          (store.Has (VeeamAgent.catalogueAfter parseDate runs) k ∨
            2 ≤ (VeeamAgent.catalogueAfter parseDate runs).length)) ∧
    (∀ (runs : List Sep.Run) (run : Sep.Run),
      Complete run.clock.todeleteDate (Sep.items run) (Sep.exportXml run (Sep.fileAfter runs)).sep ↔
      ∀ k i, store.lastFor (Sep.items run) k = some i → k ≠ defaultKey ∧
        (store.Has (Sep.fileAfter runs).sep k ∨ 2 ≤ (Sep.fileAfter runs).sep.length) ∧
        ¬ Sep.TagClash (Sep.fileAfter runs).sep (Sep.items run) i.date) :=
  ⟨VeeamAgent.complete_exportXml_iff parseDate, Sep.complete_exportXml_iff⟩

end Runs

/-! ## The catalogue that stays empty -/

section Example

local instance : Culture := Culture.ascii

/-- The time in the subjects of the example. -/
def christmas : DateTime := DateTime.ofNat 2020 12 25 0 0

/-- A run without mails. -/
def silentRun : VeeamAgent.Run := ⟨[], DateTime.ofNat 2020 12 17 10 0⟩

/-- A run with one mail. -/
def lateRun : VeeamAgent.Run where
  mails := ["[Success] Agent - PC01 - Friday, 25 December 2020".toList]
  todeleteDate := DateTime.ofNat 2020 12 18 10 0

/-- A first run without mails leaves an empty catalogue. -/
theorem catalogueAfter_silentRun :
    VeeamAgent.catalogueAfter (fun _ => some christmas) [silentRun] = [] := by
  have hfirst := VeeamAgent.exportXml_catalogueAfter (fun _ => some christmas) [] silentRun
  have hstep := VeeamAgent.catalogueAfter_append (fun _ => some christmas) [] silentRun
  rw [List.nil_append, hfirst] at hstep
  rw [hstep]
  decide +kernel

/-- After a run without mails, the first machine is lost. -/
theorem lateRun_not_complete : ¬ Complete lateRun.todeleteDate
    (VeeamAgent.items (fun _ => some christmas) VeeamAgent.unset lateRun.mails)
    (VeeamAgent.exportXml (fun _ => some christmas) lateRun
      (VeeamAgent.catalogueAfter (fun _ => some christmas) [silentRun])) := by
  rw [VeeamAgent.complete_exportXml_iff, catalogueAfter_silentRun]
  intro h
  have hroom := (h "pc01".toList ⟨"PC01".toList, "0".toList, christmas.format⟩
    (by decide +kernel) (by decide +kernel)).2
  exact absurd hroom (by decide +kernel)

end Example

end OpsScripts.Catalogue
