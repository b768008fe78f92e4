import OpsScripts.Catalogue.Sep
import OpsScripts.Catalogue.VeeamAgent
import OpsScripts.Zabbix.Listings

/-!
# What the catalogues tell the monitoring

The monitoring finds the names of a catalogue by its discovery and then asks for the values of each
of them. The template has one name twice, but it does not survive a run: from then on every name
that is found is asked for by itself and has one answer.
-/

namespace OpsScripts.Catalogue

open Json Zabbix Zabbix.Listing

variable [Culture]

/-- Entries of different names. -/
def Distinct (c : List Entry) : Prop := (store.keys c).Nodup

theorem Ready.distinct {c : List Entry} (h : Ready c) (hkey : ∀ e ∈ c, store.key e ≠ defaultKey) :
    Distinct c := by
  have hnodup := h.nodup
  rwa [List.filter_eq_self.mpr] at hnodup
  intro k hk
  obtain ⟨e, he, rfl⟩ := List.mem_map.mp hk
  exact decide_eq_true (hkey e he)

/-- A name of a distinct catalogue has one entry. -/
theorem Distinct.filter_eq {c : List Entry} (h : Distinct c) {e : Entry} (he : e ∈ c) :
    (c.filter fun e' => eqIgnoreCase e'.name e.name) = [e] := by
  obtain ⟨e', hentries⟩ := store.entriesOf_eq_singleton (p := fun _ => true) (k := store.key e)
    (h.filter _) rfl ⟨e, he, rfl⟩
  have hmem : e ∈ store.entriesOf c (store.key e) :=
    List.mem_filter.mpr ⟨he, decide_eq_true rfl⟩
  rw [hentries, List.mem_singleton] at hmem
  rw [hmem, ← hentries]
  apply List.filter_congr
  intro e'' _
  rw [Bool.eq_iff_iff, eqIgnoreCase_iff, decide_eq_true_eq, hmem]
  rfl

/-- The discovery of some names tells them exactly if they can be written as they are. -/
def Told (discover : List Text → Text) (key : Text) (c : List Entry) : Prop :=
  lowLevelDiscovery (discover (c.map Entry.name)) [key] = some (c.map fun e => [e.name]) ↔
    ∀ e ∈ c, Plain e.name

omit [Culture] in
theorem told {key : Text} (hkey : Plain key) (c : List Entry) : Told (listing key) key c := by
  have hlisting := lowLevelDiscovery_listing_iff hkey (c.map Entry.name)
  rw [List.map_map, List.forall_mem_map] at hlisting
  exact hlisting

namespace VeeamAgent

/-- `JobLastRunTime`. -/
def jobLastRunTime (c : List Entry) (id : Text) : List Text :=
  (c.filter fun e => eqIgnoreCase id e.name).map (·.date)

/-- After every run the discovery of the jobs and the queries for a job agree: the names are
different ones, and each of them has one result and one time. -/
theorem jobs_served (parseDate : Text → Option DateTime) (runs : List Run) (run : Run) :
    let c := catalogueAfter parseDate (runs ++ [run])
    Distinct c ∧ (∀ e ∈ c, jobLastResult c e.name = [e.result] ∧
      jobLastRunTime c e.name = [e.date]) ∧ Told discoverJobs apptasks c := by
  intro c
  have hc : c = remaining parseDate run (catalogueAfter parseDate runs) := by
    change catalogueAfter parseDate (runs ++ [run]) = _
    rw [catalogueAfter_append, exportXml_catalogueAfter]
  have hready : Ready c := ready_catalogueAfter parseDate (runs ++ [run])
  have hdistinct : Distinct c := by
    apply hready.distinct
    rw [hc]
    exact fun e he => key_ne_of_mem_remaining parseDate he
  refine ⟨hdistinct, fun e he => ?_, told plain_apptasks c⟩
  have hone : (c.filter fun e' => eqIgnoreCase e.name e'.name) = [e] := by
    rw [← hdistinct.filter_eq he]
    apply List.filter_congr
    intro e' _
    rw [Bool.eq_iff_iff, eqIgnoreCase_iff, eqIgnoreCase_iff]
    exact eq_comm
  rw [jobLastResult, jobLastRunTime, hone]
  exact ⟨rfl, rfl⟩

end VeeamAgent

namespace Sep

/-- After every run the discovery of the versions and the query for a version agree: the versions
are different ones, and each of them has one number. -/
theorem versions_served (runs : List Run) (run : Run) :
    let f := fileAfter (runs ++ [run])
    Distinct f.sep ∧ (∀ e ∈ f.sep, f.vnum e.name =
      [if e.result < "1".toList then "1".toList else e.result]) ∧ Told discovery version f.sep := by
  intro f
  have hf : f.sep = remaining run (fileAfter runs).sep := by
    change (fileAfter (runs ++ [run])).sep = _
    rw [fileAfter_append, sep_exportXml_fileAfter]
  have hvalid : Valid f.sep := valid_fileAfter (runs ++ [run])
  have hdistinct : Distinct f.sep := by
    apply hvalid.toReady.distinct
    rw [hf]
    intro e he
    have hnamed := (List.mem_filter.mp (List.mem_filter.mp he).1).2
    rw [decide_eq_true_eq] at hnamed
    exact hnamed.1
  refine ⟨hdistinct, fun e he => ?_, told plain_version f.sep⟩
  rw [File.vnum, hdistinct.filter_eq he, List.map_singleton]

end Sep

end OpsScripts.Catalogue
