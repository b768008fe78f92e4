import OpsScripts.Catalogue.VeeamAgent

/-!
# Failed backups in the Veeam catalogue

Every subject is recorded with the result `0`, so a failure is reported only where no
entry is kept for its machine. The sum over the catalogue is right unless there is
exactly one entry, whose result is then added as a character.
-/

namespace OpsScripts.Catalogue.VeeamAgent

section Runs

variable [Culture] (parseDate : Text → Option DateTime)

/-- The subjects that name a machine, in order. -/
def subjectsOf (mails : List Text) (m : Text) : List Text :=
  mails.filter fun message => (machineOf message).any fun n => eqIgnoreCase n m

/-- A subject of a failed backup. -/
def isFailed (message : Text) : Bool :=
  like message "*Failed*".toList &&
    !(like message "*Success*".toList || like message "*Warning*".toList)

/-- The last subject that names the machine is a failed one. -/
def lastFailed (mails : List Text) (m : Text) : Bool :=
  (subjectsOf mails m).getLast?.any isFailed

/-- The result that the subjects call for. -/
def expected (mails : List Text) (m : Text) : Text :=
  if lastFailed mails m then "1".toList else "0".toList

/-- The number of entries with the result `1`. -/
def failedCount (c : List Entry) : Nat := (c.filter fun e => e.result = "1".toList).length

/-- Whatever is stored for a machine of the list is the result its last subject calls
for, and the sum is the number of failed entries. -/
structure FailuresReported (mails : List Text) (c : List Entry) : Prop where
  result : ∀ m, subjectsOf mails m ≠ [] → ∀ r ∈ jobLastResult c m, r = expected mails m
  sum : allResult c = failedCount c

/-- The same, where each machine of the list also has one stored result. -/
structure FailuresServed (mails : List Text) (c : List Entry) : Prop where
  result : ∀ m, subjectsOf mails m ≠ [] → jobLastResult c m = [expected mails m]
  sum : allResult c = failedCount c

/-- Entries other than the template have the result `0`. -/
def Successful (c : List Entry) : Prop :=
  ∀ e ∈ c, store.key e ≠ defaultKey → e.result = "0".toList

theorem Successful.remaining {c : List Entry} (h : Successful c) (run : Run) :
    Successful (remaining parseDate run c) := by
  intro e he hkey
  have hmem := (remaining_sublist parseDate run c).subset he
  cases hlast : store.lastFor (items parseDate unset run.mails) (store.key e) with
  | none => exact h e (store.mem_of_mem_recorded hmem hlast) hkey
  | some i =>
    obtain ⟨e₀, rfl⟩ := store.eq_change_of_mem_recorded hmem hlast
    have hzero := result_of_mem_items parseDate (store.mem_of_lastFor hlast).1
    exact hzero

/-- No catalogue has a failed entry. -/
theorem successful_catalogueAfter (runs : List Run) :
    Successful (catalogueAfter parseDate runs) := by
  induction runs using List.reverseRecOn with
  | nil =>
    intro e he hkey
    simp only [catalogueAfter, List.foldl_nil, openFile, Option.getD_none, template,
      List.mem_cons, List.not_mem_nil, or_false, or_self] at he
    exact absurd (congrArg store.key he) hkey
  | append_singleton runs run ih =>
    rw [catalogueAfter_append, exportXml_catalogueAfter]
    exact ih.remaining parseDate run

/-- After a run all results are `0`. -/
theorem result_remaining (runs : List Run) {run : Run} {e : Entry}
    (h : e ∈ remaining parseDate run (catalogueAfter parseDate runs)) :
    e.result = "0".toList :=
  (successful_catalogueAfter parseDate runs).remaining parseDate run e h
    (key_ne_of_mem_remaining parseDate h)

omit [Culture] in
/-- Without failed entries, the sum is right unless there is one entry. -/
theorem allResult_eq_failedCount_iff {c : List Entry} (h : ∀ e ∈ c, e.result = "0".toList) :
    allResult c = failedCount c ↔ c.length ≠ 1 := by
  have hcount : failedCount c = 0 := by
    rw [failedCount, List.length_eq_zero_iff, List.filter_eq_nil_iff]
    intro e he
    rw [h e he]
    decide
  have hresults : c.map (·.result) = List.replicate c.length "0".toList :=
    List.eq_replicate_iff.mpr ⟨List.length_map _, fun r hr => by
      obtain ⟨e, he, rfl⟩ := List.mem_map.mp hr
      exact h e he⟩
  rw [hcount, allResult, hresults]
  have hsum : ∀ n, (List.replicate n "0".toList).foldl addResult 0 = 0 := by
    intro n
    induction n with
    | zero => rfl
    | succ n ih => exact ih
  rcases hlen : c.length with _ | _ | n
  · simp
  · simp
  · simpa [List.replicate_succ] using hsum (n + 2)

/-- The stored results of a machine are as many zeros as it has entries. -/
theorem jobLastResult_remaining (runs : List Run) (run : Run) (m : Text) :
    jobLastResult (remaining parseDate run (catalogueAfter parseDate runs)) m =
      (store.entriesOf (remaining parseDate run (catalogueAfter parseDate runs))
        (toLower m)).map fun _ => "0".toList := by
  have hfilter : ∀ c : List Entry, (c.filter fun e => eqIgnoreCase m e.name) =
      store.entriesOf c (toLower m) := by
    intro c
    refine List.filter_congr fun e _ => ?_
    rw [Bool.eq_iff_iff, eqIgnoreCase_iff, decide_eq_true_eq]
    exact eq_comm
  rw [jobLastResult, hfilter]
  refine List.map_congr_left fun e he => ?_
  exact result_remaining parseDate runs (List.mem_filter.mp he).1

theorem expected_eq_zero_iff (mails : List Text) (m : Text) :
    "0".toList = expected mails m ↔ lastFailed mails m = false := by
  unfold expected
  cases lastFailed mails m <;> simp

theorem subjectsOf_ne_nil_of_lastFailed {mails : List Text} {m : Text}
    (h : lastFailed mails m = true) : subjectsOf mails m ≠ [] := by
  intro hnil
  simp [lastFailed, hnil] at h

/-- In the form that asks nothing of machines without an entry. -/
theorem reported_iff (runs : List Run) (run : Run) :
    FailuresReported run.mails (exportXml parseDate run (catalogueAfter parseDate runs)) ↔
      (∀ m, lastFailed run.mails m →
        ¬ store.Has (remaining parseDate run (catalogueAfter parseDate runs)) (toLower m)) ∧
      (remaining parseDate run (catalogueAfter parseDate runs)).length ≠ 1 := by
  rw [exportXml_catalogueAfter]
  have hsum := allResult_eq_failedCount_iff fun e
    (he : e ∈ remaining parseDate run (catalogueAfter parseDate runs)) =>
      result_remaining parseDate runs he
  refine ⟨fun h => ⟨fun m hfailed hhas => ?_, hsum.mp h.sum⟩, fun h => ⟨fun m hnamed r hr => ?_,
    hsum.mpr h.2⟩⟩
  · obtain ⟨e, he, hkey⟩ := hhas
    have hmem : "0".toList ∈ jobLastResult
        (remaining parseDate run (catalogueAfter parseDate runs)) m := by
      rw [jobLastResult_remaining]
      exact List.mem_map.mpr ⟨e, List.mem_filter.mpr ⟨he, by simpa using hkey⟩, rfl⟩
    have hzero := h.result m (subjectsOf_ne_nil_of_lastFailed hfailed) _ hmem
    rw [expected_eq_zero_iff, hfailed] at hzero
    exact absurd hzero (by decide)
  · rw [jobLastResult_remaining] at hr
    obtain ⟨e, he, rfl⟩ := List.mem_map.mp hr
    rw [expected_eq_zero_iff, ← Bool.not_eq_true]
    intro hfailed
    obtain ⟨hmem, hkey⟩ := List.mem_filter.mp he
    exact h.1 m hfailed ⟨e, hmem, by simpa using hkey⟩

/-- In the form that asks for one entry for each machine of the list. -/
theorem served_iff (runs : List Run) (run : Run) :
    FailuresServed run.mails (exportXml parseDate run (catalogueAfter parseDate runs)) ↔
      (∀ m, subjectsOf run.mails m ≠ [] → lastFailed run.mails m = false ∧
        store.Has (remaining parseDate run (catalogueAfter parseDate runs)) (toLower m)) ∧
      (remaining parseDate run (catalogueAfter parseDate runs)).length ≠ 1 := by
  rw [exportXml_catalogueAfter]
  have hsum := allResult_eq_failedCount_iff fun e
    (he : e ∈ remaining parseDate run (catalogueAfter parseDate runs)) =>
      result_remaining parseDate runs he
  have hone : ∀ m, jobLastResult (remaining parseDate run (catalogueAfter parseDate runs)) m =
      [expected run.mails m] ↔ lastFailed run.mails m = false ∧
        store.Has (remaining parseDate run (catalogueAfter parseDate runs)) (toLower m) := by
    intro m
    rw [jobLastResult_remaining, ← expected_eq_zero_iff]
    constructor
    · intro h
      obtain ⟨e, he, hzero⟩ := List.map_eq_singleton_iff.mp h
      have hmem : e ∈ store.entriesOf _ (toLower m) := he ▸ List.mem_cons_self
      obtain ⟨hmem, hkey⟩ := List.mem_filter.mp hmem
      exact ⟨hzero, e, hmem, by simpa using hkey⟩
    · intro h
      obtain ⟨hzero, e, he, hkey⟩ := h
      have hready := Ready.remaining parseDate (ready_catalogueAfter parseDate runs) run
      obtain ⟨e', he'⟩ := store.entriesOf_eq_singleton hready.nodup (k := toLower m)
        (by simpa using hkey ▸ key_ne_of_mem_remaining parseDate he) ⟨e, he, hkey⟩
      rw [he', ← hzero]
      rfl
  refine ⟨fun h => ⟨fun m hnamed => (hone m).mp (h.result m hnamed), hsum.mp h.sum⟩,
    fun h => ⟨fun m hnamed => (hone m).mpr (h.1 m hnamed), hsum.mpr h.2⟩⟩

/-! ## The machines that keep an entry -/

/-- An entry of the catalogue, or, where there are two of them to clone from, the first
item of a machine that the catalogue does not know. -/
def Recordable (c is : List Entry) (e : Entry) : Prop :=
  e ∈ c ∨ 2 ≤ c.length ∧ ¬ store.Has c (store.key e) ∧
    (is.find? fun i => store.key i = store.key e) = some e

/-- The last date that is known of the machine of an entry. -/
def dateFor (is : List Entry) (e : Entry) : Text :=
  ((store.lastFor is (store.key e)).getD e).date

/-- The last date is older than the limit, and some machine of the same date has a name
that matches the name of the entry, read as a pattern. -/
def Outdated (limit : Text) (c is : List Entry) (e : Entry) : Prop :=
  dateFor is e < limit ∧ ∃ old, Recordable c is old ∧ store.key old ≠ defaultKey ∧
    dateFor is old = dateFor is e ∧ like old.name e.name = true

/-- The machine of an entry keeps one: it is not called `default` and not outdated. -/
def Keeps (limit : Text) (c is : List Entry) (e : Entry) : Prop :=
  Recordable c is e ∧ store.key e ≠ defaultKey ∧ ¬ Outdated limit c is e

/-- A single machine keeps an entry. -/
def OneKept (limit : Text) (c is : List Entry) : Prop :=
  ∃ e, Keeps limit c is e ∧ ∀ e', Keeps limit c is e' → store.key e' = store.key e

theorem name_settle (is : List Entry) (e : Entry) : (store.settle is e).name = e.name := by
  unfold CloneStore.settle
  split <;> rfl

theorem date_settle (is : List Entry) (e : Entry) :
    (store.settle is e).date = dateFor is e := by
  unfold CloneStore.settle dateFor
  split
  · next h => rw [h, Option.getD_none]
  · next h =>
    rw [h, Option.getD_some]
    rfl

/-- The recorded entries are the recordable ones with their last values. -/
theorem mem_recorded_iff {c is : List Entry} {e : Entry} :
    e ∈ store.recorded c is ↔ ∃ e₀, Recordable c is e₀ ∧ store.settle is e₀ = e := by
  rw [CloneStore.recorded, List.mem_map]
  apply exists_congr
  intro e₀
  apply and_congr_left
  intro _
  rw [List.mem_append, Recordable]
  apply or_congr_right
  by_cases hroom : 2 ≤ c.length
  · rw [if_pos (show store.spare ≤ c.length from hroom), and_iff_right hroom]
    rw [show store.fresh = fun i => i from rfl, List.map_id']
    exact store.mem_newcomers_iff
  · rw [if_neg (show ¬ store.spare ≤ c.length from hroom)]
    exact iff_of_false List.not_mem_nil fun h => hroom h.1

section Remaining

variable {c : List Entry} (run : Run)

/-- An entry is aged in the recorded catalogue if it is outdated for the run. -/
theorem aged_settle_iff (h : Ready c) {e : Entry}
    (he : Recordable c (items parseDate unset run.mails) e) :
    aged run.todeleteDate.format ((store.recorded c (items parseDate unset run.mails)).filter
        fun e => store.key e ≠ defaultKey) (store.settle (items parseDate unset run.mails) e) ↔
      Outdated run.todeleteDate.format c (items parseDate unset run.mails) e := by
  have hrecorded := h.recorded fun i (hi : i ∈ items parseDate unset run.mails) =>
    stable_of_mem_items parseDate stable_nil hi
  have hmem := mem_recorded_iff.mpr ⟨e, he, rfl⟩
  rw [aged, List.any_eq_true, Outdated]
  constructor
  · rintro ⟨old, hold, hdead⟩
    obtain ⟨hold, hkey⟩ := List.mem_filter.mp hold
    obtain ⟨old₀, hold₀, rfl⟩ := mem_recorded_iff.mp hold
    rw [Bool.and_eq_true, Bool.and_eq_true, decide_eq_true_eq, name_settle, name_settle,
      like_iff_of_stable (hrecorded.stable _ hold) (hrecorded.stable _ hmem), date_settle,
      date_settle] at hdead
    obtain ⟨hlt, hname, hdate⟩ := hdead
    rw [decide_eq_true_eq, store.key_settle] at hkey
    exact ⟨hdate ▸ hlt, old₀, hold₀, hkey, hdate, hname⟩
  · rintro ⟨hlt, old, hold, hkey, hdate, hname⟩
    have holdmem := mem_recorded_iff.mpr ⟨old, hold, rfl⟩
    refine ⟨store.settle _ old, List.mem_filter.mpr ⟨holdmem, ?_⟩, ?_⟩
    · rw [decide_eq_true_eq, store.key_settle]
      exact hkey
    · rw [Bool.and_eq_true, Bool.and_eq_true, decide_eq_true_eq, name_settle, name_settle,
        like_iff_of_stable (hrecorded.stable _ holdmem) (hrecorded.stable _ hmem), date_settle,
        date_settle]
      exact ⟨hdate.symm ▸ hlt, hname, hdate⟩

/-- What remains of a catalogue are the entries that are kept, with their last values. -/
theorem mem_remaining_iff (h : Ready c) {e : Entry} : e ∈ remaining parseDate run c ↔
    ∃ e₀, Keeps run.todeleteDate.format c (items parseDate unset run.mails) e₀ ∧
      store.settle (items parseDate unset run.mails) e₀ = e := by
  rw [remaining, List.mem_filter, List.mem_filter, mem_recorded_iff]
  constructor
  · rintro ⟨⟨⟨e₀, he₀, rfl⟩, hkey⟩, haged⟩
    rw [decide_eq_true_eq, store.key_settle] at hkey
    rw [Bool.not_eq_true', ← Bool.not_eq_true, aged_settle_iff parseDate run h he₀] at haged
    exact ⟨e₀, ⟨he₀, hkey, haged⟩, rfl⟩
  · rintro ⟨e₀, ⟨he₀, hkey, houtdated⟩, rfl⟩
    refine ⟨⟨⟨e₀, he₀, rfl⟩, ?_⟩, ?_⟩
    · rw [decide_eq_true_eq, store.key_settle]
      exact hkey
    · rw [Bool.not_eq_true', ← Bool.not_eq_true, aged_settle_iff parseDate run h he₀]
      exact houtdated

theorem has_remaining_iff (h : Ready c) (k : Text) :
    store.Has (remaining parseDate run c) k ↔ ∃ e,
      Keeps run.todeleteDate.format c (items parseDate unset run.mails) e ∧ store.key e = k := by
  constructor
  · rintro ⟨e, he, hkey⟩
    obtain ⟨e₀, he₀, rfl⟩ := (mem_remaining_iff parseDate run h).mp he
    exact ⟨e₀, he₀, (store.key_settle _ e₀).symm.trans hkey⟩
  · rintro ⟨e, he, hkey⟩
    exact ⟨_, (mem_remaining_iff parseDate run h).mpr ⟨e, he, rfl⟩,
      (store.key_settle _ e).trans hkey⟩

/-- One entry remains if a single machine keeps one. -/
theorem length_remaining_iff (h : Ready c) : (remaining parseDate run c).length = 1 ↔
    OneKept run.todeleteDate.format c (items parseDate unset run.mails) := by
  constructor
  · intro hone
    obtain ⟨e, he⟩ := List.length_eq_one_iff.mp hone
    obtain ⟨e₀, he₀, rfl⟩ := (mem_remaining_iff parseDate run h).mp (he ▸ List.mem_cons_self)
    refine ⟨e₀, he₀, fun e' he' => ?_⟩
    have hmem := (mem_remaining_iff parseDate run h).mpr ⟨e', he', rfl⟩
    rw [he, List.mem_singleton] at hmem
    have hkey := congrArg store.key hmem
    rwa [store.key_settle, store.key_settle] at hkey
  · rintro ⟨e, he, hall⟩
    have hready := Ready.remaining parseDate h run
    have hsame : store.entriesOf (remaining parseDate run c) (store.key e) =
        remaining parseDate run c := by
      rw [CloneStore.entriesOf, List.filter_eq_self]
      intro e' he'
      obtain ⟨e₀, he₀, rfl⟩ := (mem_remaining_iff parseDate run h).mp he'
      rw [decide_eq_true_eq, store.key_settle]
      exact hall e₀ he₀
    have hhas := (has_remaining_iff parseDate run h _).mpr ⟨e, he, rfl⟩
    obtain ⟨e', he'⟩ := store.entriesOf_eq_singleton hready.nodup (decide_eq_true he.2.1) hhas
    rw [← hsame, he', List.length_singleton]

end Remaining

/-- For every catalogue that runs make from the template and every further run, the
failures are reported exactly if no machine whose last subject is a failed one keeps an
entry and no single machine keeps one; they are served exactly if each machine of the list
keeps an entry and has no failed last subject, and no single machine keeps one. -/
theorem failures_iff (runs : List Run) (run : Run) :
    (FailuresReported run.mails (exportXml parseDate run (catalogueAfter parseDate runs)) ↔
      (∀ m, lastFailed run.mails m → ¬ ∃ e, Keeps run.todeleteDate.format
        (catalogueAfter parseDate runs) (items parseDate unset run.mails) e ∧
          store.key e = toLower m) ∧
      ¬ OneKept run.todeleteDate.format (catalogueAfter parseDate runs)
        (items parseDate unset run.mails)) ∧
    (FailuresServed run.mails (exportXml parseDate run (catalogueAfter parseDate runs)) ↔
      (∀ m, subjectsOf run.mails m ≠ [] → lastFailed run.mails m = false ∧
        ∃ e, Keeps run.todeleteDate.format (catalogueAfter parseDate runs)
          (items parseDate unset run.mails) e ∧ store.key e = toLower m) ∧
      ¬ OneKept run.todeleteDate.format (catalogueAfter parseDate runs)
        (items parseDate unset run.mails)) := by
  have hready := ready_catalogueAfter parseDate runs
  simp only [← has_remaining_iff parseDate run hready, ← length_remaining_iff parseDate run hready]
  exact ⟨reported_iff parseDate runs run, served_iff parseDate runs run⟩

end Runs

section Example

local instance : Culture := Culture.ascii

/-- Two machines, the backup of the first of which has failed. -/
def failedRun : Run where
  mails := ["[Failed] Agent - PC01 - Friday, 25 December 2020".toList,
    "[Success] Agent - PC02 - Friday, 25 December 2020".toList]
  todeleteDate := DateTime.ofNat 2020 12 18 10 0

/-- The first run over a failed backup stores the result of a successful one. -/
theorem not_reported_failedRun : ¬ FailuresReported failedRun.mails
    (exportXml (fun _ => some (DateTime.ofNat 2020 12 25 0 0)) failedRun
      (catalogueAfter (fun _ => some (DateTime.ofNat 2020 12 25 0 0)) [])) := by
  rw [reported_iff]
  intro h
  exact h.1 "PC01".toList (by decide +kernel) (by decide +kernel)

end Example

end OpsScripts.Catalogue.VeeamAgent
