import OpsScripts.Core.FileTree
import OpsScripts.FileSync.Files

/-!
# Old logs and backups that are removed

Four scripts end with the same two lines: everything below a folder that was created before a
date is removed, then every directory without a file below it. A directory that goes takes
along what it contains, so a file stays as long as nothing on its way is old.
-/

namespace OpsScripts.FileSync.Cleanup

open FileTree

/-- A file or a directory below `$TargetFolder`, with its `CreationTime` in seconds. -/
abbrev Stored := Entry Text Nat

/-- The paths are those of different entries that lie in directories. -/
structure WellFormed (t : List Stored) : Prop where
  named : ∀ e ∈ t, e.path ≠ []
  distinct : ∀ a ∈ t, ∀ b ∈ t, a.path = b.path → a = b
  closed : Closed t

/-- What lies below `$TargetFolder`. -/
structure Folder where
  entries : List Stored
  wellFormed : WellFormed entries

/-- The seconds of some days. -/
def seconds (days : Nat) : Nat := days * 86400

section Commands

/-- `$_.CreationTime -LT $ChDaysDel`. -/
def isOld (days time : Nat) (_ : List Stored) (e : Stored) : Bool :=
  decide (e.data + seconds days < time)

/-- `Get-ChildItem -Path $_.Fullname -Recurse | Where { -not $_.PSIsContainer }`; `globbed` is
what comes of a path that is taken for a pattern. -/
def filesBelow (globbed : List Stored → List Text → List Stored) (t : List Stored)
    (path : List Text) : List Stored :=
  (if path.any hasWildcard then globbed t path
    else t.filter fun e => decide (Below path e)).filter fun e => !e.isDirectory

variable (globbed : List Stored → List Text → List Stored)

/-- `$_.PSIsContainer -and @(…).Count -eq 0`. -/
def isEmpty (t : List Stored) (e : Stored) : Bool :=
  e.isDirectory && (filesBelow globbed t e.path).isEmpty

theorem WellFormed.removeItem {t : List Stored} (h : WellFormed t) (path : List Text) :
    WellFormed (removeItem path t) where
  named e he := h.named e (mem_removeItem.mp he).1
  distinct a ha b hb := h.distinct a (mem_removeItem.mp ha).1 b (mem_removeItem.mp hb).1
  closed := by
    apply h.closed.filter
    intro c e hinit hkeep
    rw [Bool.not_eq_true', decide_eq_false_iff_not] at hkeep ⊢
    exact fun hpath => hkeep (hpath.trans hinit)

theorem WellFormed.append {t : List Stored} {directory : List Text} {name : Text}
    {isDirectory : Bool} {time : Nat} (h : WellFormed t)
    (hdirectory : directory = [] ∨ ∃ c ∈ t, c.path = directory ∧ c.isDirectory = true)
    (hnew : ∀ e ∈ t, e.path ≠ directory ++ [name]) :
    WellFormed (t ++ [⟨directory ++ [name], isDirectory, time⟩]) where
  named e he := by
    rcases List.mem_append.mp he with he | he
    · exact h.named e he
    · obtain rfl := List.mem_singleton.mp he
      exact List.append_ne_nil_of_right_ne_nil _ (List.cons_ne_nil _ _)
  distinct a ha b hb hpath := by
    rcases List.mem_append.mp ha with ha | ha <;> rcases List.mem_append.mp hb with hb | hb
    · exact h.distinct a ha b hb hpath
    · obtain rfl := List.mem_singleton.mp hb
      exact absurd hpath (hnew a ha)
    · obtain rfl := List.mem_singleton.mp ha
      exact absurd hpath.symm (hnew b hb)
    · rw [List.mem_singleton.mp ha, List.mem_singleton.mp hb]
  closed e he q hq hinit hne := by
    rcases List.mem_append.mp he with he | he
    · obtain ⟨c, hc, hpath⟩ := h.closed e he q hq hinit hne
      exact ⟨c, List.mem_append_left _ hc, hpath⟩
    · obtain rfl := List.mem_singleton.mp he
      -- what lies on the way to the new entry is the directory or lies on the way to it
      rcases List.prefix_concat_iff.mp hinit with rfl | hinit
      · exact absurd rfl hne
      · rcases hdirectory with rfl | ⟨d, hd, rfl, hkind⟩
        · exact absurd (List.prefix_nil.mp hinit) hq
        · by_cases heq : q = d.path
          · exact ⟨d, List.mem_append_left _ hd, heq.symm, hkind⟩
          · obtain ⟨c, hc, hpath⟩ := h.closed d hd q hq hinit heq
            exact ⟨c, List.mem_append_left _ hc, hpath⟩

/-- `GCI -Path $TargetFolder -Recurse | Where-Object {…} | RI -Recurse`. -/
def Folder.remove (p : List Stored → Stored → Bool) (F : Folder) : Folder where
  entries := sweep p (depth F.entries) F.entries []
  wellFormed :=
    (sweep_keeps (fun _ _ h c _ _ => h.removeItem c.path) _ _ (List.Subset.refl _) F.wellFormed).2

/-- The two lines. -/
def Folder.cleanUp (days time : Nat) (F : Folder) : Folder :=
  (F.remove (isOld days time)).remove (isEmpty globbed)

/-- An empty folder. -/
def Folder.empty : Folder where
  entries := []
  wellFormed := ⟨fun _ h => absurd h List.not_mem_nil, fun _ h => absurd h List.not_mem_nil,
    fun _ h => absurd h List.not_mem_nil⟩

/-- A new file or directory; what is there keeps its `CreationTime`. -/
def Folder.write (directory : List Text) (name : Text) (isDirectory : Bool) (time : Nat)
    (F : Folder) : Folder :=
  if h : (directory = [] ∨ ∃ c ∈ F.entries, c.path = directory ∧ c.isDirectory = true) ∧
      ∀ e ∈ F.entries, e.path ≠ directory ++ [name] then
    { entries := F.entries ++ [⟨directory ++ [name], isDirectory, time⟩]
      wellFormed := F.wellFormed.append h.1 h.2 }
  else F

end Commands

/-! ## What one start leaves -/

section Once

/-- Nothing on the way to the entry, itself included, is older than the days. -/
def Fresh (days time : Nat) (t : List Stored) (e : Stored) : Prop :=
  ∀ a ∈ t, a.path <+: e.path → time ≤ a.data + seconds days

instance (days time : Nat) (t : List Stored) (e : Stored) : Decidable (Fresh days time t e) :=
  inferInstanceAs (Decidable (∀ a ∈ t, a.path <+: e.path → time ≤ a.data + seconds days))

/-- No directory is taken for a pattern. -/
def Folder.Plain (F : Folder) : Prop :=
  ∀ e ∈ F.entries, e.isDirectory = true → e.path.any hasWildcard = false

instance (F : Folder) : Decidable F.Plain :=
  inferInstanceAs (Decidable (∀ e ∈ F.entries, e.isDirectory = true →
    e.path.any hasWildcard = false))

variable {globbed : List Stored → List Text → List Stored} {F : Folder} {t : List Stored}
  {c e f : Stored} {days time : Nat}

/-- The entries on the way of an entry are those that doom it. -/
theorem Folder.doomed_iff {q : Stored → Bool} : Doomed q F.entries [] e ↔
    ∃ a ∈ F.entries, a.path <+: e.path ∧ q a = true := by
  constructor
  · rintro ⟨a, ha, -, hway, hq⟩
    exact ⟨a, ha, hway, hq⟩
  · rintro ⟨a, ha, hway, hq⟩
    have hbelow : Below [] a :=
      And.intro List.nil_prefix (List.length_pos_iff.mpr (F.wellFormed.named a ha))
    exact ⟨a, ha, hbelow, hway, hq⟩

/-- The sweep of a kind that does not depend on the others. -/
theorem Folder.mem_sweep {q : Stored → Bool} :
    e ∈ sweep (fun _ => q) (depth F.entries) F.entries [] ↔
      e ∈ F.entries ∧ ∀ a ∈ F.entries, a.path <+: e.path → q a = false := by
  rw [sweep_eq_filter F.wellFormed.closed fun e he _ => by
    rw [List.length_nil, Nat.zero_add]
    exact length_le_depth he]
  rw [List.mem_filter, Bool.not_eq_true', decide_eq_false_iff_not, F.doomed_iff]
  apply and_congr_right
  intro _
  constructor
  · intro hnone a ha hway
    rw [← Bool.not_eq_true]
    exact fun hq => hnone ⟨a, ha, hway, hq⟩
  · rintro hall ⟨a, ha, hway, hq⟩
    exact Bool.false_ne_true ((hall a ha hway).symm.trans hq)

/-- The first line. -/
theorem Folder.mem_remove_isOld : e ∈ (F.remove (isOld days time)).entries ↔
    e ∈ F.entries ∧ Fresh days time F.entries e := by
  have hsweep := F.mem_sweep (e := e) (q := isOld days time F.entries)
  refine hsweep.trans (and_congr_right fun _ => forall₃_congr fun a _ _ => ?_)
  rw [isOld, decide_eq_false_iff_not, Nat.not_lt]

/-- A directory whose path is no pattern is empty if no file lies below it. -/
theorem isEmpty_iff (hplain : e.path.any hasWildcard = false) : isEmpty globbed t e = true ↔
    e.isDirectory = true ∧ ∀ f ∈ t, f.isDirectory = false → ¬Below e.path f := by
  rw [isEmpty, Bool.and_eq_true, List.isEmpty_iff, filesBelow, hplain, if_neg Bool.false_ne_true,
    List.filter_eq_nil_iff]
  apply and_congr_right
  intro _
  constructor
  · intro hnone f hf hfile hbelow
    apply hnone f (List.mem_filter.mpr ⟨hf, decide_eq_true hbelow⟩)
    rw [hfile, Bool.not_false]
  · intro hnone f hf hfile
    obtain ⟨hf, hbelow⟩ := List.mem_filter.mp hf
    exact hnone f hf (Bool.not_eq_true' _ ▸ hfile) (of_decide_eq_true hbelow)

/-- A directory on the way to a file has the file below it. -/
theorem Folder.below_of_file (hc : c ∈ F.entries) (hdirectory : c.isDirectory = true)
    (hf : f ∈ F.entries) (hfile : f.isDirectory = false) (hway : c.path <+: f.path) :
    Below c.path f := by
  refine ⟨hway, Nat.lt_of_le_of_ne hway.length_le fun hlength => ?_⟩
  obtain rfl := F.wellFormed.distinct c hc f hf (hway.eq_of_length hlength)
  exact Bool.false_ne_true (hfile.symm.trans hdirectory)

/-- A directory that goes for want of files makes no other directory empty. -/
theorem Folder.Plain.settled (globbed : List Stored → List Text → List Stored) (h : F.Plain) :
    Settled (isEmpty globbed) F.entries := by
  intro t ht c hc hempty e he
  cases hdirectory : e.isDirectory with
  | false => rw [isEmpty, isEmpty, hdirectory, Bool.false_and, Bool.false_and]
  | true =>
    obtain ⟨hc', hnone⟩ := (isEmpty_iff (h c hc (Bool.and_eq_true_iff.mp hempty).1)).mp hempty
    rw [Bool.eq_iff_iff, isEmpty_iff (h e he hdirectory), isEmpty_iff (h e he hdirectory)]
    apply and_congr_right
    intro _
    constructor
    · intro hnone' f hf hfile
      refine hnone' f (mem_removeItem.mpr ⟨hf, fun hway => ?_⟩) hfile
      exact hnone f hf hfile (F.below_of_file hc hc' (ht hf) hfile hway)
    · exact fun hnone' f hf => hnone' f (mem_removeItem.mp hf).1

/-- The second line leaves the files and the directories with a file below. -/
theorem Folder.Plain.mem_remove_isEmpty (h : F.Plain) :
    e ∈ (F.remove (isEmpty globbed)).entries ↔ e ∈ F.entries ∧
      (e.isDirectory = true → ∃ f ∈ F.entries, f.isDirectory = false ∧ Below e.path f) := by
  obtain ⟨hsame, -⟩ := sweep_settled (h.settled globbed) (depth F.entries) []
    (List.Subset.refl _) fun _ _ => rfl
  have hentries : (F.remove (isEmpty globbed)).entries = _ := hsame
  rw [hentries, F.mem_sweep]
  apply and_congr_right
  intro he
  constructor
  · intro hall hdirectory
    have hfull := hall e he List.prefix_rfl
    rw [← Bool.not_eq_true, isEmpty_iff (h e he hdirectory)] at hfull
    by_contra hnone
    exact hfull ⟨hdirectory, fun f hf hfile hbelow => hnone ⟨f, hf, hfile, hbelow⟩⟩
  · intro hfile a ha hway
    cases hdirectory : a.isDirectory with
    | false => rw [isEmpty, hdirectory, Bool.false_and]
    | true =>
      rw [← Bool.not_eq_true, isEmpty_iff (h a ha hdirectory)]
      rintro ⟨-, hnone⟩
      cases hkind : e.isDirectory with
      | false => exact hnone e he hkind (F.below_of_file ha hdirectory he hkind hway)
      | true =>
        obtain ⟨f, hf, hf', hbelow⟩ := hfile hkind
        exact hnone f hf hf' (F.below_of_file ha hdirectory hf hf' (hway.trans hbelow.1))

end Once

/-! ## Starts one after another -/

section Runs

/-- The scripts that end with the two lines. -/
inductive Script where
  | rec1ToRec7
  | copyADVhdx
  | exportVm
  | exportPrinters
  deriving DecidableEq

/-- `$Period`. -/
def Script.period : Script → Nat
  | .rec1ToRec7 => 14
  | .copyADVhdx => 15
  | .exportVm => 7
  | .exportPrinters => 10

/-- A start: `date` is what the script makes of `Get-Date`, `made` tells which files come about,
`failed` whether `$Error` has an entry. -/
structure Start where
  date : Text
  time : Nat
  made : Text → Bool
  failed : Bool

/-- What a script puts below its folder: the directory, the name and the kind. -/
def Script.writes (script : Script) (date : Text) : List (List Text × Text × Bool) :=
  match script with
  | .rec1ToRec7 => [([], date ++ "_backup.log", false)]
  | .copyADVhdx => [([], date, true), ([date], "hq-dc5.hq.icfed.com.vhdx", false),
      ([date], "icfed-dc1.icfed.com.vhdx", false)]
  | .exportVm => []
  | .exportPrinters => [([], date ++ "-print-config.printerExport", false)]

/-- The script comes to the two lines; `exportPrinters.ps1` ends before them on an error. -/
def Script.cleans (script : Script) (start : Start) : Bool :=
  match script with
  | .exportPrinters => !start.failed
  | _ => true

/-- What happens to the folder: someone else puts something there, or the script starts. -/
inductive Event where
  | written (directory : List Text) (name : Text) (isDirectory : Bool) (time : Nat)
  | start (start : Start)

/-- `Get-Date`. -/
def Event.time : Event → Nat
  | .written _ _ _ time => time
  | .start s => s.time

variable (globbed : List Stored → List Text → List Stored)

/-- What a script has put below its folder before the two lines. -/
def Script.put (script : Script) (start : Start) (F : Folder) : Folder :=
  ((script.writes start.date).filter fun w => start.made w.2.1).foldl
    (fun F w => F.write w.1 w.2.1 w.2.2 start.time) F

/-- One event. -/
def Script.step (script : Script) (F : Folder) : Event → Folder
  | .written directory name isDirectory time => F.write directory name isDirectory time
  | .start s =>
    if script.cleans s then (script.put s F).cleanUp globbed script.period s.time
    else script.put s F

variable {globbed} {F F' : Folder} {a e : Stored} {days time : Nat}

theorem Folder.write_subset {directory : List Text} {name : Text} {isDirectory : Bool} :
    F.entries ⊆ (F.write directory name isDirectory time).entries := by
  rw [Folder.write]
  split_ifs with h
  · exact List.subset_append_left _ _
  · exact List.Subset.refl _

theorem Folder.mem_write {directory : List Text} {name : Text} {isDirectory : Bool}
    (h : e ∈ (F.write directory name isDirectory time).entries) :
    e ∈ F.entries ∨ e.data = time := by
  rw [Folder.write] at h
  split_ifs at h with hnew
  · rcases List.mem_append.mp h with h | h
    · exact Or.inl h
    · obtain rfl := List.mem_singleton.mp h
      exact Or.inr rfl
  · exact Or.inl h

theorem Script.put_subset (script : Script) (start : Start) :
    F.entries ⊆ (script.put start F).entries := by
  rw [Script.put]
  apply List.foldlRecOn (motive := fun F' : Folder => F.entries ⊆ F'.entries) _ _
    (List.Subset.refl _)
  exact fun F' h w _ => List.Subset.trans h F'.write_subset

theorem Script.mem_put {script : Script} {start : Start} (h : e ∈ (script.put start F).entries) :
    e ∈ F.entries ∨ e.data = start.time := by
  revert h
  rw [Script.put]
  apply List.foldlRecOn
    (motive := fun F' : Folder => e ∈ F'.entries → e ∈ F.entries ∨ e.data = start.time) _ _ Or.inl
  exact fun F' h w _ hmem => F'.mem_write hmem |>.elim h Or.inr

/-- A sweep leaves entries that were there. -/
theorem Folder.remove_subset {p : List Stored → Stored → Bool} : (F.remove p).entries ⊆ F.entries :=
  (sweep_keeps (P := fun _ => True) (fun _ _ _ _ _ _ => trivial) _ _ (List.Subset.refl _)
    trivial).1

theorem Folder.cleanUp_subset : (F.cleanUp globbed days time).entries ⊆ F.entries :=
  List.Subset.trans Folder.remove_subset Folder.remove_subset

/-- As long as an entry stays, so does what is on the way to it. -/
theorem Folder.onWay_iff (hsub : F'.entries ⊆ F.entries) (he : e ∈ F'.entries)
    (hway : a.path <+: e.path) : a ∈ F'.entries ↔ a ∈ F.entries := by
  refine ⟨fun ha => hsub ha, fun ha => ?_⟩
  by_cases hpath : a.path = e.path
  · obtain rfl := F.wellFormed.distinct a ha e (hsub he) hpath
    exact he
  · obtain ⟨c, hc, hsame, -⟩ :=
      F'.wellFormed.closed e he a.path (F.wellFormed.named a ha) hway hpath
    obtain rfl := F.wellFormed.distinct c (hsub hc) a ha hsame
    exact hc

theorem Folder.fresh_iff (hsub : F'.entries ⊆ F.entries) (he : e ∈ F'.entries) :
    Fresh days time F'.entries e ↔ Fresh days time F.entries e :=
  ⟨fun h a ha hway => h a ((Folder.onWay_iff hsub he hway).mpr ha) hway,
    fun h a ha => h a (hsub ha)⟩

/-- A file is never below a directory that goes for want of files. -/
theorem Folder.file_mem_remove_isEmpty (he : e ∈ F.entries) (hfile : e.isDirectory = false)
    (hplain : e.path.dropLast.any hasWildcard = false) :
    e ∈ (F.remove (isEmpty globbed)).entries := by
  refine (sweep_keeps (P := fun t => e ∈ t) ?_ _ _ (List.Subset.refl _) he).2
  intro t _ ht c hc hempty
  refine mem_removeItem.mpr ⟨ht, fun hway => ?_⟩
  have hdirectory := (Bool.and_eq_true_iff.mp hempty).1
  have hbelow := F.below_of_file hc hdirectory he hfile hway
  have hparent : c.path <+: e.path.dropLast := by
    rw [← List.dropLast_append_getLast (F.wellFormed.named e he), List.prefix_concat_iff] at hway
    rcases hway with heq | hway
    · rw [List.dropLast_append_getLast] at heq
      exact absurd hbelow.2 (by rw [heq]; exact Nat.lt_irrefl _)
    · exact hway
  have hplain' : c.path.any hasWildcard = false := by
    rw [List.any_eq_false] at hplain ⊢
    exact fun name hname => hplain name (hparent.subset hname)
  exact ((isEmpty_iff hplain').mp hempty).2 e ht hfile hbelow

/-- A file stays in a start if nothing on its way is old. -/
theorem Folder.file_mem_cleanUp (hfile : e.isDirectory = false)
    (hplain : e.path.dropLast.any hasWildcard = false) :
    e ∈ (F.cleanUp globbed days time).entries ↔
      e ∈ F.entries ∧ Fresh days time F.entries e := by
  rw [← F.mem_remove_isOld]
  exact ⟨fun h => Folder.remove_subset h, fun h => Folder.file_mem_remove_isEmpty h hfile hplain⟩

/-- What is not there does not come with a time that is past. -/
theorem Script.not_mem_step {script : Script} {event : Event} (h : e ∉ F.entries)
    (hlater : e.data < event.time) : e ∉ (script.step globbed F event).entries := by
  intro hmem
  cases event with
  | written directory name isDirectory time =>
    rcases Folder.mem_write hmem with hmem | hdata
    · exact h hmem
    · exact Nat.ne_of_lt hlater hdata
  | start s =>
    have hput : e ∈ (script.put s F).entries := by
      rw [Script.step] at hmem
      split_ifs at hmem
      · exact Folder.cleanUp_subset hmem
      · exact hmem
    rcases Script.mem_put hput with hmem | hdata
    · exact h hmem
    · exact Nat.ne_of_lt hlater hdata

/-- One start: the file stays unless the script cleans up and something on its way is old. -/
theorem Script.mem_start {script : Script} {s : Start} (he : e ∈ F.entries)
    (hfile : e.isDirectory = false) (hplain : e.path.dropLast.any hasWildcard = false) :
    e ∈ (script.step globbed F (.start s)).entries ↔
      (script.cleans s = true → Fresh script.period s.time F.entries e) := by
  have hput := script.put_subset s he
  rw [Script.step]
  split_ifs with hcleans
  · rw [Folder.file_mem_cleanUp hfile hplain, ← Folder.fresh_iff (script.put_subset s) he]
    exact ⟨fun h _ => h.2, fun h => ⟨hput, h hcleans⟩⟩
  · exact ⟨fun _ h => absurd h hcleans, fun _ => hput⟩

/-- What is on the way to a file that stays is the same afterwards. -/
theorem Script.fresh_step {script : Script} {event : Event} (he : e ∈ F.entries)
    (he' : e ∈ (script.step globbed F event).entries) :
    Fresh days time (script.step globbed F event).entries e ↔
      Fresh days time F.entries e := by
  cases event with
  | written directory name isDirectory written =>
    exact (Folder.fresh_iff Folder.write_subset he).symm
  | start s =>
    have hput : Fresh days time F.entries e ↔ Fresh days time (script.put s F).entries e :=
      Folder.fresh_iff (script.put_subset s) he
    rw [Script.step] at he' ⊢
    split_ifs at he' ⊢ with hcleans
    · exact (Folder.fresh_iff Folder.cleanUp_subset he').trans hput.symm
    · exact hput.symm

end Runs

end OpsScripts.FileSync.Cleanup
