import OpsScripts.Catalogue.Entries

/-!
# `SEP.ps1`

The devices of the antivirus server are counted for each agent version, and the counts
are recorded in the catalogue next to the `sepm` element with the counters of the whole
fleet. The `sep` elements have no attribute `Name`, so the removal of duplicates, which
looks at `Name`, finds the name of the element instead.
-/

namespace OpsScripts.Catalogue.Sep

/-- A device of `Get-SEPDevice`. -/
structure Device where
  name : Text
  agentVersion : Text
  onlineStatus : Nat
  infected : Nat
  deriving DecidableEq

/-- The `sepm` element. -/
structure Sepm where
  version : Text
  all : Text
  online : Text
  offline : Text
  infected : Text
  infectedNames : Text
  deriving DecidableEq

/-- The file `SEPM.xml`. -/
structure File where
  sep : List Entry
  sepm : Option Sepm
  deriving DecidableEq

/-- The times a run reads: the limit, one day before its start, and the time at each
version. -/
structure Clock where
  todeleteDate : DateTime
  now : Nat → DateTime
  le_now : ∀ j, todeleteDate.stamp ≤ (now j).stamp

/-- What a run reads. -/
structure Run where
  pc : List Device
  sepmV : Text
  clock : Clock

/-- The template that is written when the file does not exist. -/
def templateFile : File where
  sep := template
  sepm := some ⟨"default".toList, "default".toList, "default".toList, "default".toList,
    "default".toList, "default".toList⟩

/-! ## Counting -/

/-- `.count` of the objects of a pipeline: a single object has none. -/
def count {α : Type} (xs : List α) : Option Nat :=
  match xs with
  | [_] => none
  | _ => some xs.length

/-- A number, or `$null`, in a text. -/
def interpolate : Option Nat → Text
  | none => []
  | some n => decimal n

/-- `Select-Object -Unique`: the first of equal texts stays. -/
def selectUnique : List Text → List Text
  | [] => []
  | v :: vs => v :: (selectUnique vs).filter fun w => w ≠ v

/-- `$SepPcVersion`. -/
def versions (pc : List Device) : List Text := selectUnique (pc.map (·.agentVersion))

theorem mem_selectUnique {v : Text} {vs : List Text} : v ∈ selectUnique vs ↔ v ∈ vs := by
  induction vs with
  | nil => rfl
  | cons w vs ih =>
    by_cases h : v = w <;> simp [selectUnique, ih, h]

theorem nodup_selectUnique (vs : List Text) : (selectUnique vs).Nodup := by
  induction vs with
  | nil => exact List.nodup_nil
  | cons v vs ih => exact List.nodup_cons.mpr ⟨by simp, ih.filter _⟩

/-- The versions of a fleet. -/
theorem mem_versions {pc : List Device} {v : Text} :
    v ∈ versions pc ↔ ∃ d ∈ pc, d.agentVersion = v := by
  simp [versions, mem_selectUnique]

theorem format_ne_nil (d : DateTime) : d.format ≠ [] := by
  simp [DateTime.format, DateTime.two]

section Runs

variable [Culture]

/-- The devices with a version up to case. -/
def withVersion (pc : List Device) (v : Text) : List Device :=
  pc.filter fun d => eqIgnoreCase d.agentVersion v

/-- The versions with their counts and the times they are recorded. -/
def items (run : Run) : List Entry :=
  (versions run.pc).mapIdx fun j v =>
    ⟨v, interpolate (count (withVersion run.pc v)), (run.clock.now j).format⟩

/-- The texts of a list in a text, with spaces between them. -/
def joinNames (names : List Text) : Text := [' '].intercalate names

/-- The counters of a run in the `sepm` element. -/
def counters (run : Run) : Sepm where
  version := run.sepmV
  all := interpolate (count run.pc)
  online := interpolate (count (run.pc.filter fun d => d.onlineStatus = 1))
  offline := interpolate (count (run.pc.filter fun d => d.onlineStatus = 0))
  infected := decimal ((count (run.pc.filter fun d => d.infected = 1)).getD 0)
  infectedNames := joinNames ((run.pc.filter fun d => d.infected = 1).map (·.name))

/-! ## A run -/

/-- `$DeleteName -contains $_.Name -and $DeleteDate -notlike $_.Date` on an element with
a name and a date. -/
def deadElement (g : Entry) (name date : Text) : Bool :=
  eqIgnoreCase g.name name && !like g.date date

/-- The `sep` elements that go for a group. -/
def dead (g e : Entry) : Bool := deadElement g "sep".toList e.date

/-- The `sepm` element stays for all groups; it has no date. -/
def sepmStays (sep : List Entry) : Bool :=
  (groups sep).all fun g => !deadElement g "sepm".toList []

/-- The `sepm` element is not like an outdated entry; it has no attribute `versions`. -/
def sepmFresh (limit : Text) (sep : List Entry) : Bool :=
  sep.all fun old => !(decide (old.date < limit) && (like old.name [] && like old.date []))

/-- `ExportXml`. -/
def exportXml (run : Run) (file : File) : File :=
  let updated := (items run).foldl exportItem file.sep
  let named := removeDefault (removeDuplicates dead updated)
  { sep := removeOld run.clock.todeleteDate.format named
    sepm :=
      if sepmStays updated && sepmFresh run.clock.todeleteDate.format named then
        file.sepm.map fun _ => counters run
      else none }

/-- The file after a sequence of runs, the first of which writes the template. -/
def fileAfter (runs : List Run) : File := runs.foldl (fun f run => exportXml run f) templateFile

/-! ## Queries -/

/-- The text of a child of the `sepm` element. -/
def File.query (f : File) (field : Sepm → Text) : Text := (f.sepm.map field).getD []

/-- `AllPC`. -/
def File.allPC (f : File) : Text := f.query (·.all)

/-- `Online`. -/
def File.online (f : File) : Text := f.query (·.online)

/-- `Offline`. -/
def File.offline (f : File) : Text := f.query (·.offline)

/-- `Infected`. -/
def File.infected (f : File) : Text := f.query (·.infected)

/-- `Vnum`: a result less than one, as text, is shown as one. -/
def File.vnum (f : File) (id : Text) : List Text :=
  (f.sep.filter fun e => eqIgnoreCase e.name id).map fun e =>
    if e.result < "1".toList then "1".toList else e.result

/-! ## Items -/

/-- An item holds the count of its version and one of the times of the run. -/
theorem mem_items {run : Run} {i : Entry} (h : i ∈ items run) :
    i.name ∈ versions run.pc ∧ i.result = interpolate (count (withVersion run.pc i.name)) ∧
      ∃ j, i.date = (run.clock.now j).format := by
  obtain ⟨j, hj, rfl⟩ := List.mem_mapIdx.mp h
  exact ⟨List.getElem_mem hj, rfl, j, rfl⟩

/-- There is an item for each version. -/
theorem exists_mem_items {run : Run} {v : Text} (h : v ∈ versions run.pc) :
    ∃ i ∈ items run, i.name = v := by
  obtain ⟨j, hj, rfl⟩ := List.getElem_of_mem h
  exact ⟨_, List.mem_mapIdx.mpr ⟨j, hj, rfl⟩, rfl⟩

theorem stable_of_mem_items {run : Run} {i : Entry} (h : i ∈ items run) : Stable i.date := by
  obtain ⟨-, -, j, hj⟩ := mem_items h
  exact hj ▸ stable_format _

/-- All items are within the limit. -/
theorem not_lt_of_mem_items {run : Run} {i : Entry} (h : i ∈ items run) :
    ¬ i.date < run.clock.todeleteDate.format := by
  obtain ⟨-, -, j, hj⟩ := mem_items h
  rw [hj, DateTime.format_lt_format]
  have := run.clock.le_now j
  omega

/-! ## What a run does -/

/-- The key of a version that is called like the elements. -/
def sepKey : Text := toLower "sep".toList

/-- What a run leaves of the entries. -/
def remaining (run : Run) (c : List Entry) : List Entry :=
  let updated := store.recorded c (items run)
  (updated.filter fun e => store.key e ≠ defaultKey ∧
    ∀ g ∈ updated, store.key g = sepKey → g.date = e.date).filter fun e =>
      !aged run.clock.todeleteDate.format
        (updated.filter fun e => store.key e ≠ defaultKey ∧
          ∀ g ∈ updated, store.key g = sepKey → g.date = e.date) e

/-- What holds of the entries of every file. -/
structure Valid (c : List Entry) : Prop extends Ready c where
  date_ne_nil : ∀ e ∈ c, e.date ≠ []

theorem valid_template : Valid template where
  toReady := ready_template
  date_ne_nil := by
    intro e he
    simp only [template, List.mem_cons, List.not_mem_nil, or_false, or_self] at he
    rw [he]
    decide

theorem Valid.recorded {c : List Entry} (h : Valid c) (run : Run) :
    Valid (store.recorded c (items run)) where
  toReady := h.toReady.recorded fun _ => stable_of_mem_items
  date_ne_nil := by
    intro e he
    cases hlast : store.lastFor (items run) (store.key e) with
    | none => exact h.date_ne_nil e (store.mem_of_mem_recorded he hlast)
    | some i =>
      obtain ⟨e₀, rfl⟩ := store.eq_change_of_mem_recorded he hlast
      obtain ⟨-, -, j, hj⟩ := mem_items (store.mem_of_lastFor hlast).1
      intro hnil
      exact format_ne_nil _ (hj ▸ hnil)

theorem Valid.sublist {c c' : List Entry} (h : Valid c) (hsub : c'.Sublist c) : Valid c' where
  toReady := h.toReady.sublist hsub
  date_ne_nil e he := h.date_ne_nil e (hsub.subset he)

/-- Duplicates are removed only for a version that is called `sep`. -/
theorem removeDuplicates_dead {c : List Entry} (h : Ready c) : removeDuplicates dead c =
    c.filter fun e => ∀ g ∈ c, store.key g = sepKey → g.date = e.date := by
  rw [removeDuplicates_eq]
  refine List.filter_congr fun e he => ?_
  have hdead : ∀ g ∈ c, dead g e = true ↔ store.key g = sepKey ∧ g.date ≠ e.date := by
    intro g hg
    have hlike := like_iff_of_stable (h.stable g hg) (h.stable e he)
    rw [dead, deadElement, Bool.and_eq_true, eqIgnoreCase_iff, Bool.not_eq_true',
      ← Bool.not_eq_true, hlike]
    rfl
  rw [Bool.eq_iff_iff, List.all_eq_true, decide_eq_true_eq]
  constructor
  · intro hall g hg hkey
    obtain ⟨g', hg', hkey'⟩ := exists_mem_groups hg
    have hmem := mem_of_mem_groups hg'
    have hstay := hall g' hg'
    rw [Bool.not_eq_true', ← Bool.not_eq_true, hdead g' hmem] at hstay
    by_contra hne
    refine hstay ⟨hkey'.trans hkey, fun hdate => hne ?_⟩
    exact (h.date_eq g hg g' hmem hkey'.symm).trans hdate
  · intro hall g hg
    have hmem := mem_of_mem_groups hg
    rw [Bool.not_eq_true', ← Bool.not_eq_true, hdead g hmem]
    exact fun hx => hx.2 (hall g hmem hx.1)

/-- What a run leaves of a valid file. -/
theorem sep_exportXml {f : File} (h : Valid f.sep) (run : Run) :
    (exportXml run f).sep = remaining run f.sep := by
  have hrecorded := (h.recorded run).toReady
  have hnamed : removeDefault (removeDuplicates dead (store.recorded f.sep (items run))) =
      (store.recorded f.sep (items run)).filter fun e => store.key e ≠ defaultKey ∧
        ∀ g ∈ store.recorded f.sep (items run), store.key g = sepKey → g.date = e.date := by
    rw [removeDuplicates_dead hrecorded, removeDefault, List.filter_filter]
    refine List.filter_congr fun e _ => ?_
    rw [Bool.eq_iff_iff, Bool.and_eq_true, Bool.not_eq_true', ← Bool.not_eq_true,
      eqIgnoreCase_iff, decide_eq_true_eq, decide_eq_true_eq]
    exact and_congr_left fun _ => not_congr eq_comm
  simp only [exportXml]
  rw [foldl_exportItem, hnamed, removeOld_eq, remaining]

theorem remaining_sublist (run : Run) (c : List Entry) :
    (remaining run c).Sublist (store.recorded c (items run)) :=
  List.filter_sublist.trans List.filter_sublist

theorem fileAfter_append (runs : List Run) (run : Run) :
    fileAfter (runs ++ [run]) = exportXml run (fileAfter runs) := by
  simp [fileAfter]

/-- All files are valid. -/
theorem valid_fileAfter (runs : List Run) : Valid (fileAfter runs).sep := by
  induction runs using List.reverseRecOn with
  | nil => exact valid_template
  | append_singleton runs run ih =>
    rw [fileAfter_append, sep_exportXml ih]
    exact (ih.recorded run).sublist (remaining_sublist run _)

/-- What a run leaves of the entries of earlier runs. -/
theorem sep_exportXml_fileAfter (runs : List Run) (run : Run) :
    (exportXml run (fileAfter runs)).sep = remaining run (fileAfter runs).sep :=
  sep_exportXml (valid_fileAfter runs) run

/-- The `sepm` element goes when there is a version called `sepm`. -/
theorem sepm_exportXml {f : File} (h : Valid f.sep) (run : Run) :
    (exportXml run f).sepm =
      if store.Has (store.recorded f.sep (items run)) (toLower "sepm".toList) then none
      else f.sepm.map fun _ => counters run := by
  set updated := store.recorded f.sep (items run) with hupdated
  have hvalid : Valid updated := h.recorded run
  have hlike : ∀ e ∈ updated, like e.date [] = false := by
    intro e he
    rw [← Bool.not_eq_true, like_iff_of_stable (hvalid.stable e he) stable_nil]
    exact hvalid.date_ne_nil e he
  have hstays : sepmStays updated = true ↔ ¬ store.Has updated (toLower "sepm".toList) := by
    rw [sepmStays, List.all_eq_true]
    constructor
    · intro hall hhas
      obtain ⟨e, he, hkey⟩ := hhas
      obtain ⟨g, hg, hkey'⟩ := exists_mem_groups he
      have hstay := hall g hg
      rw [deadElement, hlike g (mem_of_mem_groups hg), Bool.not_false, Bool.and_true,
        Bool.not_eq_true', ← Bool.not_eq_true, eqIgnoreCase_iff] at hstay
      exact hstay (hkey'.trans hkey)
    · intro hnone g hg
      rw [Bool.not_eq_true', ← Bool.not_eq_true, deadElement, Bool.and_eq_true, eqIgnoreCase_iff]
      exact fun hdead => hnone ⟨g, mem_of_mem_groups hg, hdead.1⟩
  have hfresh : sepmFresh run.clock.todeleteDate.format
      (removeDefault (removeDuplicates dead updated)) = true := by
    rw [sepmFresh, List.all_eq_true]
    intro old hold
    have hmem : old ∈ updated := by
      rw [removeDuplicates_eq] at hold
      exact (List.mem_filter.mp (mem_removeDefault_iff.mp hold).1).1
    simp [hlike old hmem]
  simp only [exportXml, foldl_exportItem, ← hupdated, hfresh, Bool.and_true]
  by_cases hhas : store.Has updated (toLower "sepm".toList)
  · rw [if_pos hhas, if_neg fun hx => hstays.mp hx hhas]
  · rw [if_neg hhas, if_pos (hstays.mpr hhas)]

end Runs

end OpsScripts.Catalogue.Sep
