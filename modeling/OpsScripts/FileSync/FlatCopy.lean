import OpsScripts.FileSync.Files

/-!
# Newest files in one folder

`CopyToDisk.ps1` copies the newest file of every directory into one flat folder. `robocopy`
writes over a file of the same name, unless the two agree in size and time. So of the files
of one name that are chosen one is left in the end: the first of the last ones that agree.
-/

namespace OpsScripts.FileSync

section Folders

variable [Culture]

/-- A folder on the disk; no two of its files have one name. -/
structure Folder where
  files : List File
  distinct : files.Pairwise fun f g => f.sameName g = false

/-- `New-Item`. -/
def Folder.empty : Folder := ⟨[], List.Pairwise.nil⟩

/-- The file is there already. -/
def Folder.hasSame (folder : Folder) (f : File) : Bool :=
  folder.files.any fun g => f.sameName g && f.isSame g

/-- The files of other names. -/
def Folder.others (folder : Folder) (f : File) : List File :=
  folder.files.filter fun g => !f.sameName g

/-- Replace the file of the name. -/
def Folder.overwrite (folder : Folder) (f : File) : Folder where
  files := folder.others f ++ [f]
  distinct := by
    rw [List.pairwise_append]
    refine ⟨folder.distinct.filter _, List.pairwise_singleton _ f, fun g hg h hh => ?_⟩
    rw [List.mem_singleton.mp hh]
    have hname := (List.mem_filter.mp hg).2
    rw [Bool.not_eq_true'] at hname
    rw [← Bool.not_eq_true, File.sameName_comm, Bool.not_eq_true]
    exact hname

/-- `robocopy` of one file. -/
def Folder.copy (folder : Folder) (f : File) : Folder :=
  if folder.hasSame f then folder else folder.overwrite f

/-! ## The loops -/

/-- The two loops that copy into one folder. -/
inductive Loop where
  | sql
  | veeam

/-- The `-filter` of a loop. -/
def Loop.filter : Loop → Text
  | .sql => "*.bak"
  | .veeam => "*.vbk"

/-- The alternatives of `$excludeDirectory`. -/
def excludeDirectory : List Text :=
  ["SPPS".toList, "Backup_Exch01".toList, "VERSTKA2".toList, "Woodwing".toList, "file02".toList,
    "RAFT".toList, "FR001".toList]

/-- `where Name -NotMatch $excludeDirectory`, in the second loop only. -/
def Loop.visits (loop : Loop) (my : Directory) : Bool :=
  match loop with
  | .sql => true
  | .veeam => !excludeDirectory.any fun name =>
      contains (toLower name) (toLower (lastPiece '\\' my.fullName))

variable (globbed : Globbing) (loop : Loop)

/-- The file of a directory that is handed to `robocopy`. -/
def copied (my : Directory) : Option File :=
  (directoryTo globbed loop.filter my).bind fun item => my.file item.name

/-- One pass of the loop. -/
def copyDirectory (folder : Folder) (my : Directory) : Folder :=
  match directoryTo globbed loop.filter my with
  | none => folder
  | some item =>
    match my.file item.name with
    | none => folder
    | some f => folder.copy f

/-- The loop over the directories of the tree. -/
def copyLoop (folder : Folder) (tree : List Directory) : Folder :=
  (tree.filter loop.visits).foldl (copyDirectory globbed loop) folder

/-- For every directory that is visited and has files of the kind, the folder has the content
of a newest one. -/
def Lossless (folder : Folder) (tree : List Directory) : Prop :=
  ∀ my ∈ tree.filter loop.visits, my.files loop.filter ≠ [] →
    ∃ f, my.IsNewest loop.filter f ∧ ∃ g ∈ (copyLoop globbed loop folder tree).files,
      g.bytes = f.bytes

/-! ## Which file is left -/

/-- A file among those that are copied one after the other: the ones of its name behind it
agree with it in size and time, and the last one before it does not. -/
def Kept (fs : List File) (g : File) : Prop :=
  ∃ before after, fs = before ++ g :: after ∧
    (∀ h ∈ after, g.sameName h = true → g.isSame h = true) ∧
      ∀ h ∈ (before.filter g.sameName).getLast?, g.isSame h = false

/-- The content of a newest file of every directory is in a file that is left. -/
def Preserved (folder : Folder) (tree : List Directory) : Prop :=
  ∀ my ∈ tree.filter loop.visits, my.files loop.filter ≠ [] →
    ∃ f, my.IsNewest loop.filter f ∧
      ∃ g, Kept (folder.files ++ (tree.filter loop.visits).filterMap (copied globbed loop)) g ∧
        g.bytes = f.bytes

end Folders

section Copies

variable [Culture]

/-- The loop copies the chosen files. -/
theorem copyLoop_eq (globbed : Globbing) (loop : Loop) (folder : Folder) (tree : List Directory) :
    copyLoop globbed loop folder tree =
      ((tree.filter loop.visits).filterMap (copied globbed loop)).foldl Folder.copy folder := by
  rw [copyLoop, List.foldl_filterMap]
  congr 1
  funext folder my
  cases hitem : directoryTo globbed loop.filter my with
  | none => simp only [copyDirectory, copied, hitem, Option.bind_none]
  | some item =>
    cases hfile : my.file item.name <;>
      simp only [copyDirectory, copied, hitem, Option.bind_some, hfile]

variable {folder : Folder} {f g h : File}

/-- A file of the folder is the only one of its name. -/
theorem Folder.eq_of_sameName (hg : g ∈ folder.files) (hh : h ∈ folder.files)
    (hname : g.sameName h = true) : g = h := by
  by_contra hne
  rcases List.pairwise_iff_getElem.mp folder.distinct with hdistinct
  obtain ⟨i, hi, rfl⟩ := List.getElem_of_mem hg
  obtain ⟨j, hj, rfl⟩ := List.getElem_of_mem hh
  rcases Nat.lt_trichotomy i j with hij | hij | hij
  · rw [hdistinct i j hi hj hij] at hname
    cases hname
  · subst hij
    exact hne rfl
  · rw [File.sameName_comm, hdistinct j i hj hi hij] at hname
    cases hname

theorem Folder.hasSame_iff : folder.hasSame f = true ↔
    ∃ g ∈ folder.files, f.sameName g = true ∧ f.isSame g = true := by
  simp only [Folder.hasSame, List.any_eq_true, Bool.and_eq_true]

/-- What is there behind one copy. -/
theorem Folder.mem_copy : g ∈ (folder.copy f).files ↔
    if folder.hasSame f then g ∈ folder.files
    else (g ∈ folder.files ∧ f.sameName g = false) ∨ g = f := by
  rw [Folder.copy]
  split_ifs
  · rfl
  · simp only [Folder.overwrite, Folder.others, List.mem_append, List.mem_filter,
      List.mem_singleton, Bool.not_eq_true']

/-- The last of the copied files of a name agrees with the file of that name in the folder. -/
def Current (fs : List File) (folder : Folder) : Prop :=
  ∀ f h : File, (fs.filter f.sameName).getLast? = some h →
    ∃ g ∈ folder.files, f.sameName g = true ∧ h.isSame g = true

theorem current_files (folder : Folder) : Current folder.files folder := by
  intro f h hlast
  have hmem := List.mem_of_getLast? hlast
  rw [List.mem_filter] at hmem
  exact ⟨h, hmem.1, hmem.2, File.isSame_self h⟩

/-- One copy keeps this. -/
theorem Current.copy {fs : List File} (hcurrent : Current fs folder) (f : File) :
    Current (fs ++ [f]) (folder.copy f) := by
  intro f' h hlast
  rw [List.filter_append] at hlast
  by_cases hname : f'.sameName f = true
  · rw [List.filter_cons_of_pos hname, List.filter_nil, List.getLast?_concat,
      Option.some.injEq] at hlast
    subst hlast
    by_cases hsame : folder.hasSame f = true
    · obtain ⟨g, hg, hgname, hgsame⟩ := Folder.hasSame_iff.mp hsame
      exact ⟨g, Folder.mem_copy.mpr (by rwa [if_pos hsame]), File.sameName_trans hname hgname,
        hgsame⟩
    · exact ⟨f, Folder.mem_copy.mpr (by rw [if_neg hsame]; exact Or.inr rfl), hname,
        File.isSame_self f⟩
  · rw [List.filter_cons_of_neg hname, List.filter_nil, List.append_nil] at hlast
    obtain ⟨g, hg, hgname, hgsame⟩ := hcurrent f' h hlast
    have hother : f.sameName g = false := by
      rw [← Bool.not_eq_true]
      intro hfg
      exact hname (File.sameName_trans hgname (File.sameName_comm.mp hfg))
    refine ⟨g, Folder.mem_copy.mpr ?_, hgname, hgsame⟩
    split_ifs
    · exact hg
    · exact Or.inl ⟨hg, hother⟩

/-- Behind one more copy the new file is left, or the ones before it that it does not
replace. -/
theorem kept_concat_iff {fs : List File} : Kept (fs ++ [f]) g ↔
    (Kept fs g ∧ (g.sameName f = true → g.isSame f = true)) ∨
      g = f ∧ ∀ h ∈ (fs.filter f.sameName).getLast?, f.isSame h = false := by
  constructor
  · rintro ⟨before, after, heq, hafter, hbefore⟩
    rcases List.eq_nil_or_concat' after with rfl | ⟨rest, last, rfl⟩
    · obtain ⟨rfl, hlast⟩ := List.append_inj' heq rfl
      obtain rfl := List.singleton_inj.mp hlast
      exact Or.inr ⟨rfl, hbefore⟩
    · rw [← List.cons_append, ← List.append_assoc] at heq
      obtain ⟨rfl, hlast⟩ := List.append_inj' heq rfl
      obtain rfl := List.singleton_inj.mp hlast
      exact Or.inl ⟨⟨before, rest, rfl, fun h hh => hafter h (List.mem_append_left _ hh), hbefore⟩,
        hafter f (List.mem_append_right _ (List.mem_singleton_self f))⟩
  · rintro (⟨⟨before, after, rfl, hafter, hbefore⟩, hlast⟩ | ⟨rfl, hbefore⟩)
    · refine ⟨before, after ++ [f], ?_, fun h hh => ?_, hbefore⟩
      · rw [List.append_assoc, List.cons_append]
      · rcases List.mem_append.mp hh with hh | hh
        · exact hafter h hh
        · rwa [List.mem_singleton.mp hh]
    · exact ⟨fs, [], rfl, fun h hh => absurd hh List.not_mem_nil, hbefore⟩

/-- Nothing was copied yet: every file of the folder is the only one of its name. -/
theorem kept_files_iff (folder : Folder) : Kept folder.files g ↔ g ∈ folder.files := by
  constructor
  · rintro ⟨before, after, heq, -⟩
    rw [heq]
    exact List.mem_append_right _ List.mem_cons_self
  · intro hg
    obtain ⟨before, after, heq⟩ := List.append_of_mem hg
    have hdistinct := folder.distinct
    rw [heq, List.pairwise_append, List.pairwise_cons] at hdistinct
    obtain ⟨-, ⟨hafter, -⟩, hbefore⟩ := hdistinct
    refine ⟨before, after, heq, fun h hh hname => ?_, fun h hh => ?_⟩
    · rw [hafter h hh] at hname
      cases hname
    · obtain ⟨hmem, hname⟩ := List.mem_filter.mp (List.mem_of_getLast? hh)
      rw [File.sameName_comm, hbefore h hmem g List.mem_cons_self] at hname
      cases hname

/-- The last file of the name of one that is left agrees with it. -/
theorem Kept.exists_getLast {fs : List File} (hkept : Kept fs g) (hname : f.sameName g = true) :
    ∃ h ∈ (fs.filter f.sameName).getLast?, g.isSame h = true := by
  obtain ⟨before, after, rfl, hafter, -⟩ := hkept
  rw [List.filter_append, List.filter_cons_of_pos hname, List.getLast?_append_cons]
  cases hlast : (after.filter f.sameName).getLast? with
  | none =>
    rw [List.getLast?_eq_none_iff.mp hlast]
    exact ⟨g, rfl, File.isSame_self g⟩
  | some h =>
    obtain ⟨hmem, hname'⟩ := List.mem_filter.mp (List.mem_of_getLast? hlast)
    have hne : after.filter f.sameName ≠ [] := by
      rintro hnil
      rw [hnil] at hlast
      cases hlast
    rw [List.getLast?_cons_of_ne_nil hne]
    exact ⟨h, hlast, hafter h hmem (File.sameName_trans (File.sameName_comm.mp hname) hname')⟩

/-- The folder holds exactly the files that are left, and the last one of every name agrees
with the one that is there. -/
theorem copies_spec (folder : Folder) (fs : List File) :
    (∀ g, g ∈ (fs.foldl Folder.copy folder).files ↔ Kept (folder.files ++ fs) g) ∧
      Current (folder.files ++ fs) (fs.foldl Folder.copy folder) := by
  induction fs using List.reverseRecOn with
  | nil =>
    rw [List.append_nil]
    exact ⟨fun g => (kept_files_iff folder).symm, current_files folder⟩
  | append_singleton fs f ih =>
    obtain ⟨hmem, hcurrent⟩ := ih
    rw [List.foldl_append, ← List.append_assoc, List.foldl_cons, List.foldl_nil]
    refine ⟨fun g => ?_, hcurrent.copy f⟩
    rw [Folder.mem_copy, kept_concat_iff, ← hmem]
    by_cases hsame : (fs.foldl Folder.copy folder).hasSame f = true
    · obtain ⟨g₀, hg₀, hname₀, hsame₀⟩ := Folder.hasSame_iff.mp hsame
      rw [if_pos hsame]
      constructor
      · intro hg
        refine Or.inl ⟨hg, fun hname => ?_⟩
        rw [Folder.eq_of_sameName hg hg₀ (File.sameName_trans hname hname₀)]
        exact File.isSame_comm.mp hsame₀
      · rintro (⟨hg, -⟩ | ⟨rfl, hlast⟩)
        · exact hg
        · obtain ⟨h, hh, hsame'⟩ := ((hmem g₀).mp hg₀).exists_getLast hname₀
          have hne := hlast h hh
          rw [File.isSame_trans hsame₀ hsame'] at hne
          cases hne
    · rw [if_neg hsame]
      constructor
      · rintro (⟨hg, hname⟩ | rfl)
        · refine Or.inl ⟨hg, fun hname' => ?_⟩
          rw [File.sameName_comm, hname] at hname'
          cases hname'
        · refine Or.inr ⟨rfl, fun h hlast => ?_⟩
          obtain ⟨g₁, hg₁, hname₁, hsame₁⟩ := hcurrent g h hlast
          rw [← Bool.not_eq_true]
          intro hgh
          exact hsame (Folder.hasSame_iff.mpr ⟨g₁, hg₁, hname₁, File.isSame_trans hgh hsame₁⟩)
      · rintro (⟨hg, hrest⟩ | ⟨rfl, -⟩)
        · refine Or.inl ⟨hg, ?_⟩
          rw [← Bool.not_eq_true]
          intro hname
          have hgf := hrest (File.sameName_comm.mp hname)
          exact hsame (Folder.hasSame_iff.mpr ⟨g, hg, hname, File.isSame_comm.mp hgf⟩)
        · exact Or.inr rfl

/-- A directory whose path is no pattern, whose files have different names, and whose newest item
of the kind is a file. -/
structure Ordinary (globbed : Globbing) (loop : Loop) (my : Directory) : Prop where
  plain : hasWildcard my.fullName = false
  distinct : (my.items.filterMap Item.file?).Pairwise fun f g => f.sameName g = false
  newest : ∀ item, directoryTo globbed loop.filter my = some item → ∃ f, item = .file f

/-- The file of a name is the one that has it. -/
theorem Ordinary.file_name {globbed : Globbing} {loop : Loop} {my : Directory}
    (h : Ordinary globbed loop my) (hf : f ∈ my.items.filterMap Item.file?) :
    my.file f.name = some f := by
  have hdistinct := h.distinct
  rw [Directory.file]
  generalize my.items.filterMap Item.file? = fs at hf hdistinct
  induction fs with
  | nil => cases hf
  | cons g fs ih =>
    rw [List.pairwise_cons] at hdistinct
    rcases List.mem_cons.mp hf with rfl | hf
    · exact List.find?_cons_of_pos (eqIgnoreCase_self f.name)
    · have hother : eqIgnoreCase g.name f.name = false := hdistinct.1 f hf
      simp only [List.find?_cons, hother]
      exact ih hf hdistinct.2

/-- A newest file is copied. -/
theorem Ordinary.exists_copied {globbed : Globbing} {loop : Loop} {my : Directory}
    (h : Ordinary globbed loop my) (hfiles : my.files loop.filter ≠ []) :
    ∃ f, my.IsNewest loop.filter f ∧ copied globbed loop my = some f := by
  cases hitem : directoryTo globbed loop.filter my with
  | none =>
    obtain ⟨f, hf⟩ := List.exists_mem_of_ne_nil _ hfiles
    obtain ⟨hmem, hlike⟩ := List.mem_filter.mp hf
    obtain ⟨item, hmem, hfile⟩ := List.mem_filterMap.mp hmem
    rw [Item.file?_eq_some] at hfile
    have hlisted : item ∈ getChildItem globbed loop.filter my := by
      rw [getChildItem, h.plain, if_neg Bool.false_ne_true, List.mem_filter, hfile]
      exact ⟨hfile ▸ hmem, hlike⟩
    have hempty := List.getLast?_eq_none_iff.mp hitem
    rw [← List.mem_mergeSort, hempty] at hlisted
    cases hlisted
  | some item =>
    obtain ⟨f, rfl⟩ := h.newest item hitem
    have hnewest := isNewest_of_directoryTo h.plain hitem
    refine ⟨f, hnewest, ?_⟩
    rw [copied, hitem, Option.bind_some]
    exact h.file_name (List.mem_of_mem_filter hnewest.1)

/-- Nothing is lost in ordinary directories where files of one name have one content. -/
theorem preserved_of_names {globbed : Globbing} {loop : Loop} {folder : Folder}
    {tree : List Directory} (htree : ∀ my ∈ tree.filter loop.visits, Ordinary globbed loop my)
    (hnames : ∀ f ∈ (tree.filter loop.visits).filterMap (copied globbed loop),
      ∀ g ∈ folder.files ++ (tree.filter loop.visits).filterMap (copied globbed loop),
        f.sameName g = true → g.bytes = f.bytes) :
    Preserved globbed loop folder tree := by
  intro my hmy hfiles
  obtain ⟨f, hnewest, hf⟩ := (htree my hmy).exists_copied hfiles
  set fs := (tree.filter loop.visits).filterMap (copied globbed loop) with hfs
  have hf' : f ∈ fs := List.mem_filterMap.mpr ⟨my, hmy, hf⟩
  have hmem : f ∈ folder.files ++ fs := List.mem_append_right _ hf'
  have hne : (folder.files ++ fs).filter f.sameName ≠ [] :=
    List.ne_nil_of_mem (List.mem_filter.mpr ⟨hmem, File.sameName_self f⟩)
  obtain ⟨hspec, hcurrent⟩ := copies_spec folder fs
  obtain ⟨g, hg, hname, -⟩ := hcurrent f _ (List.getLast?_eq_getLast_of_ne_nil hne)
  obtain ⟨before, after, heq, -⟩ := (hspec g).mp hg
  have hgmem : g ∈ folder.files ++ fs := by
    rw [heq]
    exact List.mem_append_right _ List.mem_cons_self
  exact ⟨f, hnewest, g, (hspec g).mp hg, hnames f hf' g hgmem hname⟩

/-- Nothing is lost exactly if for every directory that is visited the content of a newest
file is in a file that is left. -/
theorem lossless_iff (globbed : Globbing) (loop : Loop) (folder : Folder)
    (tree : List Directory) :
    Lossless globbed loop folder tree ↔ Preserved globbed loop folder tree := by
  simp only [Lossless, Preserved, copyLoop_eq, (copies_spec folder _).1]

end Copies

section Example

local instance asciiFlatCopy : Culture := Culture.ascii

/-- Two servers with a database of the same name. -/
def twoServers : List Directory :=
  [⟨"E:\\SQL\\srv1".toList, [.file ⟨"db.bak".toList, 1, [1]⟩]⟩,
    ⟨"E:\\SQL\\srv2".toList, [.file ⟨"db.bak".toList, 2, [2]⟩]⟩]

/-- Only the file of the second server is on the disk. -/
theorem twoServers_not_lossless : ¬Lossless (fun _ => []) .sql Folder.empty twoServers := by
  intro h
  have hfirst : twoServers.head (by decide) ∈ twoServers.filter (Loop.visits .sql) := by
    decide +kernel
  obtain ⟨f, ⟨hf, -⟩, g, hg, hbytes⟩ := h _ hfirst (by decide +kernel)
  have hfiles : (twoServers.head (by decide)).files (Loop.filter .sql) =
      [⟨"db.bak".toList, 1, [1]⟩] := by decide +kernel
  have hleft : (copyLoop (fun _ => []) .sql Folder.empty twoServers).files =
      [⟨"db.bak".toList, 2, [2]⟩] := by decide +kernel
  rw [hfiles, List.mem_singleton] at hf
  rw [hleft, List.mem_singleton] at hg
  subst hf hg
  cases hbytes

end Example

end OpsScripts.FileSync
