import OpsScripts.Catalogue.Completeness
import Mathlib.Algebra.BigOperators.Group.List.Lemmas
import Mathlib.Algebra.GroupWithZero.Nat

/-!
# The counters of the antivirus fleet

Each counter of the fleet is the count of a pipeline, which is not there for a single
object, and only the counter of the infected devices and the query for a version repair
it, the first to zero and the second to one. A counter is right unless it counts one
device; a version is right if it has an entry and no other version is equal to it up to
case.
-/

namespace OpsScripts.Catalogue.Sep

/-- The number of devices with a property. -/
def number (pc : List Device) (p : Device → Bool) : Nat := (pc.filter p).length

/-- A repaired counter is right unless it counts one object. -/
theorem decimal_getD_count_iff {α : Type} (xs : List α) :
    decimal ((count xs).getD 0) = decimal xs.length ↔ xs.length ≠ 1 := by
  rcases xs with _ | ⟨a, _ | ⟨b, xs⟩⟩
  · simp [count]
  · simp only [count, Option.getD_none, List.length_singleton, ne_eq, not_true, iff_false]
    exact fun h => absurd (decimal_injective h) (by decide)
  · simp [count]

/-- So is a counter that is stored as it is. -/
theorem interpolate_count_iff {α : Type} (xs : List α) :
    interpolate (count xs) = decimal xs.length ↔ xs.length ≠ 1 := by
  rcases xs with _ | ⟨a, _ | ⟨b, xs⟩⟩
  · simp [count, interpolate]
  · simp only [count, interpolate, List.length_singleton, ne_eq, not_true, iff_false]
    exact (decimal_ne_nil 1).symm
  · simp [count, interpolate]

/-- The query for a version repairs the count of a single device. -/
theorem repair_interpolate_count {α : Type} {xs : List α} (h : xs ≠ []) :
    (if interpolate (count xs) < "1".toList then "1".toList else interpolate (count xs)) =
      decimal xs.length := by
  rcases xs with _ | ⟨a, _ | ⟨b, xs⟩⟩
  · exact absurd rfl h
  · have hlt : interpolate (count [a]) < "1".toList := (by decide : ([] : Text) < "1".toList)
    rw [if_pos hlt, List.length_singleton, decimal]
    rfl
  · have hge := not_decimal_lt_one (n := (a :: b :: xs).length) (by simp)
    simp only [count, interpolate]
    exact if_neg hge

/-- The numbers of each text of a list sum up to its length. -/
theorem sum_length_filter_dedup {α : Type} [DecidableEq α] (l : List α) :
    (l.dedup.map fun v => (l.filter fun w => w = v).length).sum = l.length := by
  have hcount : ∀ v, (l.filter fun w => w = v).length = l.count v := by
    intro v
    rw [List.count, List.countP_eq_length_filter]
    rfl
  simp only [hcount]
  exact List.sum_map_count_dedup_eq_length l

/-- The devices of the versions sum up to the fleet. -/
theorem sum_number_versions (pc : List Device) :
    ((versions pc).map fun v => number pc fun d => d.agentVersion = v).sum = pc.length := by
  have hmap : ∀ v, (number pc fun d => d.agentVersion = v) =
      ((pc.map (·.agentVersion)).filter fun w => w = v).length := by
    intro v
    rw [List.filter_map, List.length_map]
    rfl
  have hperm : (versions pc).Perm (pc.map (·.agentVersion)).dedup :=
    (List.perm_ext_iff_of_nodup (nodup_selectUnique _) (List.nodup_dedup _)).mpr
      fun v => by rw [mem_selectUnique, List.mem_dedup]
  simp only [hmap]
  rw [(hperm.map _).sum_eq, sum_length_filter_dedup, List.length_map]

section Runs

variable [Culture]

/-- What the queries return after a run: the numbers of the devices of the fleet, and
for each version the number of its devices, which sum up to the whole fleet. -/
structure Counted (pc : List Device) (f : File) : Prop where
  infected : f.infected = decimal (number pc fun d => d.infected = 1)
  online : f.online = decimal (number pc fun d => d.onlineStatus = 1)
  offline : f.offline = decimal (number pc fun d => d.onlineStatus = 0)
  allPC : f.allPC = decimal pc.length
  vnum : ∀ v ∈ versions pc, f.vnum v = [decimal (number pc fun d => d.agentVersion = v)]
  sum : ((versions pc).map fun v => number pc fun d => d.agentVersion = v).sum = pc.length

/-- What a file and a run must be like for that. -/
structure Countable (f : File) (run : Run) : Prop where
  infected : (number run.pc fun d => d.infected = 1) ≠ 1
  online : (number run.pc fun d => d.onlineStatus = 1) ≠ 1
  offline : (number run.pc fun d => d.onlineStatus = 0) ≠ 1
  allPC : run.pc.length ≠ 1
  sepm : f.sepm.isSome
  no_sepm : ¬ store.Has f.sep (toLower "sepm".toList)
  no_new_sepm : 2 ≤ f.sep.length → ∀ v ∈ versions run.pc, toLower v ≠ toLower "sepm".toList
  entry : ∀ k i, store.lastFor (items run) k = some i → k ≠ defaultKey ∧
    (store.Has f.sep k ∨ 2 ≤ f.sep.length) ∧ ¬ TagClash f.sep (items run) i.date
  case : ∀ v ∈ versions run.pc, ∀ w ∈ versions run.pc, toLower v = toLower w → v = w

/-- The last item of a version. -/
theorem exists_lastFor {run : Run} {v : Text} (hv : v ∈ versions run.pc) :
    ∃ i, store.lastFor (items run) (toLower v) = some i := by
  obtain ⟨i, hi, rfl⟩ := exists_mem_items hv
  cases hlast : store.lastFor (items run) (toLower i.name) with
  | none => exact absurd rfl (store.lastFor_eq_none_iff.mp hlast i hi)
  | some j => exact ⟨j, rfl⟩

/-- Its result is the count of the version up to case. -/
theorem result_lastFor {run : Run} {v : Text} {i : Entry}
    (h : store.lastFor (items run) (toLower v) = some i) :
    i.result = interpolate (count (withVersion run.pc v)) := by
  obtain ⟨hmem, hkey⟩ := store.mem_of_lastFor h
  have hsame : withVersion run.pc i.name = withVersion run.pc v := by
    refine List.filter_congr fun d _ => ?_
    rw [Bool.eq_iff_iff, eqIgnoreCase_iff, eqIgnoreCase_iff]
    exact iff_of_eq (congrArg _ hkey)
  rw [(mem_items hmem).2.1, hsame]

/-- No other version of the fleet is equal to `v` up to case exactly if the numbers agree. -/
theorem length_withVersion_iff (pc : List Device) (v : Text) :
    (withVersion pc v).length = (number pc fun d => d.agentVersion = v) ↔
      ∀ w ∈ versions pc, toLower v = toLower w → v = w := by
  have hsub : (pc.filter fun d => d.agentVersion = v) =
      (withVersion pc v).filter fun d => d.agentVersion = v := by
    rw [withVersion, List.filter_filter]
    refine List.filter_congr fun d _ => ?_
    by_cases hd : d.agentVersion = v <;> simp [hd]
  rw [number, hsub, eq_comm, List.length_filter_eq_length_iff]
  constructor
  · intro hall w hw hcase
    obtain ⟨d, hd, rfl⟩ := mem_versions.mp hw
    have := hall d (List.mem_filter.mpr ⟨hd, by simp [hcase]⟩)
    exact (of_decide_eq_true this).symm
  · intro hall d hd
    obtain ⟨hmem, hcase⟩ := List.mem_filter.mp hd
    rw [eqIgnoreCase_iff] at hcase
    exact decide_eq_true (hall _ (mem_versions.mpr ⟨d, hmem, rfl⟩) hcase.symm).symm

/-- The query for a version is right exactly if the version has its entry and is equal to
no other one up to case. -/
theorem vnum_iff (runs : List Run) (run : Run) {v : Text} (hv : v ∈ versions run.pc) {i : Entry}
    (hlast : store.lastFor (items run) (toLower v) = some i) :
    (exportXml run (fileAfter runs)).vnum v =
        [decimal (number run.pc fun d => d.agentVersion = v)] ↔
      Carries (exportXml run (fileAfter runs)).sep i ∧
        ∀ w ∈ versions run.pc, toLower v = toLower w → v = w := by
  have hne : withVersion run.pc v ≠ [] := by
    obtain ⟨d, hd, rfl⟩ := mem_versions.mp hv
    exact List.ne_nil_of_mem (List.mem_filter.mpr ⟨hd, eqIgnoreCase_self _⟩)
  have hentries : ((exportXml run (fileAfter runs)).sep.filter fun e => eqIgnoreCase e.name v) =
      store.entriesOf (exportXml run (fileAfter runs)).sep (store.itemKey i) := by
    refine List.filter_congr fun e _ => ?_
    rw [Bool.eq_iff_iff, eqIgnoreCase_iff, decide_eq_true_eq, (store.mem_of_lastFor hlast).2]
    rfl
  rw [← length_withVersion_iff, File.vnum, hentries]
  constructor
  · intro h
    obtain ⟨e, he, hvalue⟩ := List.map_eq_singleton_iff.mp h
    have hmem : e ∈ store.entriesOf _ (store.itemKey i) := he ▸ List.mem_singleton_self e
    obtain ⟨hmem, hkey⟩ := List.mem_filter.mp hmem
    rw [decide_eq_true_eq, (store.mem_of_lastFor hlast).2] at hkey
    rw [sep_exportXml_fileAfter] at hmem
    obtain ⟨e₀, rfl⟩ := store.eq_change_of_mem_recorded
      ((remaining_sublist run _).subset hmem) (hkey ▸ hlast)
    refine ⟨⟨_, he, rfl, rfl⟩, decimal_injective ?_⟩
    rw [← repair_interpolate_count hne, ← result_lastFor hlast]
    exact hvalue
  · intro h
    obtain ⟨⟨e, he, hresult, -⟩, hlength⟩ := h
    rw [he, List.map_singleton, hresult, result_lastFor hlast, repair_interpolate_count hne,
      hlength]

/-- The `sepm` element has the counters of the run, or there is none. -/
theorem sepm_exportXml_fileAfter (runs : List Run) (run : Run) :
    (exportXml run (fileAfter runs)).sepm = some (counters run) ↔
      (fileAfter runs).sepm.isSome ∧ ¬ store.Has (fileAfter runs).sep (toLower "sepm".toList) ∧
        (2 ≤ (fileAfter runs).sep.length → ∀ v ∈ versions run.pc,
          toLower v ≠ toLower "sepm".toList) := by
  have hhas : store.Has (store.recorded (fileAfter runs).sep (items run)) (toLower "sepm".toList) ↔
      store.Has (fileAfter runs).sep (toLower "sepm".toList) ∨
        (2 ≤ (fileAfter runs).sep.length ∧
          ∃ v ∈ versions run.pc, toLower v = toLower "sepm".toList) := by
    have hitems : (∃ i ∈ items run, store.itemKey i = toLower "sepm".toList) ↔
        ∃ v ∈ versions run.pc, toLower v = toLower "sepm".toList := by
      constructor
      · intro h
        obtain ⟨i, hi, hkey⟩ := h
        exact ⟨i.name, (mem_items hi).1, hkey⟩
      · intro h
        obtain ⟨v, hv, hkey⟩ := h
        obtain ⟨i, hi, rfl⟩ := exists_mem_items hv
        exact ⟨i, hi, hkey⟩
    rw [CloneStore.has_recorded, CloneStore.exists_newcomer_iff, hitems]
    by_cases hold : store.Has (fileAfter runs).sep (toLower "sepm".toList)
    · exact iff_of_true (Or.inl hold) (Or.inl hold)
    · exact or_congr_right (and_congr_right fun _ => and_iff_right hold)
  rw [sepm_exportXml (valid_fileAfter runs)]
  cases hsepm : (fileAfter runs).sepm with
  | none => simp
  | some m =>
    by_cases h : store.Has (store.recorded (fileAfter runs).sep (items run))
        (toLower "sepm".toList)
    · rw [if_pos h]
      rw [hhas] at h
      simp only [reduceCtorEq, false_iff]
      intro hx
      rcases h with h | ⟨hroom, v, hv, hkey⟩
      · exact hx.2.1 h
      · exact hx.2.2 hroom v hv hkey
    · rw [if_neg h]
      rw [hhas, not_or] at h
      simp only [Option.map_some, true_iff]
      exact ⟨rfl, h.1, fun hroom v hv hkey => h.2 ⟨hroom, v, hv, hkey⟩⟩

/-- The queries are right only if the `sepm` element is there. -/
theorem sepm_of_counted {runs : List Run} {run : Run}
    (h : Counted run.pc (exportXml run (fileAfter runs))) :
    (exportXml run (fileAfter runs)).sepm = some (counters run) := by
  have hall := h.allPC
  rw [sepm_exportXml (valid_fileAfter runs)]
  rw [File.allPC, File.query, sepm_exportXml (valid_fileAfter runs)] at hall
  split at hall
  · exact absurd hall.symm (decimal_ne_nil _)
  · next hno =>
    rw [if_neg hno]
    cases hsepm : (fileAfter runs).sepm with
    | none =>
      rw [hsepm] at hall
      exact absurd hall.symm (decimal_ne_nil _)
    | some m => rfl

/-- Right answers tell what the file and the fleet are like. -/
theorem countable_of_counted {runs : List Run} {run : Run}
    (h : Counted run.pc (exportXml run (fileAfter runs))) : Countable (fileAfter runs) run := by
  have hsepm := sepm_of_counted h
  obtain ⟨hsome, hold, hnew⟩ := (sepm_exportXml_fileAfter runs run).mp hsepm
  have hvnum : ∀ v ∈ versions run.pc, ∀ i, store.lastFor (items run) (toLower v) = some i →
      Carries (exportXml run (fileAfter runs)).sep i ∧
        ∀ w ∈ versions run.pc, toLower v = toLower w → v = w :=
    fun v hv i hlast => (vnum_iff runs run hv hlast).mp (h.vnum v hv)
  have hinfected := h.infected
  have honline := h.online
  have hoffline := h.offline
  have hall := h.allPC
  simp only [File.infected, File.online, File.offline, File.allPC, File.query, hsepm,
    Option.map_some, Option.getD_some, counters, number] at hinfected honline hoffline hall
  exact {
    infected := (decimal_getD_count_iff _).mp hinfected
    online := (interpolate_count_iff _).mp honline
    offline := (interpolate_count_iff _).mp hoffline
    allPC := (interpolate_count_iff _).mp hall
    sepm := hsome
    no_sepm := hold
    no_new_sepm := hnew
    entry := by
      intro k i hlast
      obtain ⟨hmem, rfl⟩ := store.mem_of_lastFor hlast
      exact (carries_exportXml_iff runs run hlast).mp
        (hvnum i.name (mem_items hmem).1 i hlast).1
    case := by
      intro v hv
      obtain ⟨i, hlast⟩ := exists_lastFor hv
      exact (hvnum v hv i hlast).2 }

/-- A countable file and fleet have right answers. -/
theorem counted_of_countable {runs : List Run} {run : Run} (h : Countable (fileAfter runs) run) :
    Counted run.pc (exportXml run (fileAfter runs)) := by
  have hsepm := (sepm_exportXml_fileAfter runs run).mpr ⟨h.sepm, h.no_sepm, h.no_new_sepm⟩
  have hquery : ∀ field, (exportXml run (fileAfter runs)).query field = field (counters run) := by
    intro field
    rw [File.query, hsepm]
    rfl
  exact {
    infected := (hquery _).trans ((decimal_getD_count_iff _).mpr h.infected)
    online := (hquery _).trans ((interpolate_count_iff _).mpr h.online)
    offline := (hquery _).trans ((interpolate_count_iff _).mpr h.offline)
    allPC := (hquery _).trans ((interpolate_count_iff _).mpr h.allPC)
    vnum := by
      intro v hv
      obtain ⟨i, hlast⟩ := exists_lastFor hv
      exact (vnum_iff runs run hv hlast).mpr
        ⟨(carries_exportXml_iff runs run hlast).mpr (h.entry _ i hlast), h.case v hv⟩
    sum := sum_number_versions run.pc }

/-- For every file that runs make from the template and every further run, over any
fleet, the queries are right exactly if the file and the fleet are countable. -/
theorem counted_iff (runs : List Run) (run : Run) :
    Counted run.pc (exportXml run (fileAfter runs)) ↔ Countable (fileAfter runs) run :=
  ⟨countable_of_counted, counted_of_countable⟩

end Runs

section Example

local instance : Culture := Culture.ascii

/-- A fleet with one infected device, as in the sample of the catalogue. -/
def infectedRun : Run where
  pc := [⟨"TULA056".toList, "14.2.5323.2000".toList, 1, 1⟩,
    ⟨"TULA057".toList, "14.2.5323.2000".toList, 1, 0⟩]
  sepmV := "14.3.3384.1000".toList
  clock := ⟨DateTime.ofNat 2020 12 23 12 12, fun _ => DateTime.ofNat 2020 12 24 12 12,
    fun _ => by decide⟩

/-- One infected device is counted as none. -/
theorem infectedRun_not_counted :
    ¬ Counted infectedRun.pc (exportXml infectedRun (fileAfter [])) :=
  fun h => (countable_of_counted h).infected (by decide)

end Example

end OpsScripts.Catalogue.Sep
