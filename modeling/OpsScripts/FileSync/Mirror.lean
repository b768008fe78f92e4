import Mathlib.Logic.Function.Basic
import OpsScripts.Core.Interruption
import OpsScripts.Core.Replacement
import OpsScripts.FileSync.Files

/-!
# The newest backup of every directory

For each directory `toDisaster.ps1` removes the backups of the destination, unless some name
there contains the name of the newest file, and then copies that file. A copy that fails
leaves the destination without a backup; a file that is not removed stays beside the new one.
-/

namespace OpsScripts.FileSync

/-- What a directory of the destination contains; a file that is not complete is one whose
copy was broken off. -/
inductive Entry where
  | file (f : File) (complete : Bool)
  | directory (name : Text)
  deriving DecidableEq

/-- `name`. -/
def Entry.name : Entry → Text
  | .file f _ => f.name
  | .directory name => name

/-- The destination: what its directories contain. -/
abbrev Destination := Text → List Entry

/-- What the cmdlets do for a path with wildcard characters. -/
structure Shell where
  globbed : Globbing
  listed : Text → Destination → List Text
  removed : Text → Destination → Destination

/-- What becomes of a copy. -/
inductive Outcome where
  | complete
  /-- Nothing was written. -/
  | failed
  /-- The file is there, but not all of it. -/
  | interrupted
  deriving DecidableEq

/-- The commands of the loop, `robocopy` in two steps. -/
inductive MirrorCommand where
  | removeItem (path : Text)
  | beginCopy (path : Text) (f : File)
  | endCopy (path : Text) (f : File)

/-- The directory that a command is about. -/
def MirrorCommand.path : MirrorCommand → Text
  | .removeItem path => path
  | .beginCopy path _ => path
  | .endCopy path _ => path

/-- The name of the server. -/
def server : Text := "\\\\172.254.254.1"

/-- `$destenationDirectory`. -/
def destenationDirectory (my : Directory) : Text := replace server "E:".toList my.fullName

/-- `-filter *.vbk`. -/
def vbk : Text := "*.vbk"

section Mirror

variable [Culture]

/-- The directories of the source: their paths are different and have two backslashes in a
row in front of the server only; a file is found by its name. -/
structure SourceTree where
  directories : List Directory
  below : ∀ my ∈ directories, ∃ rest, my.fullName = server ++ rest ∧ ¬['\\', '\\'] <:+: rest
  distinct : (directories.map Directory.fullName).Nodup
  file : ∀ my ∈ directories, ∀ f, .file f ∈ my.items → my.file f.name = some f

variable (S : Shell)

/-- A backup, complete or not. -/
def Entry.isVbk : Entry → Bool
  | .file f _ => like f.name vbk
  | .directory _ => false

/-- An entry is a file of the same name. -/
def Entry.isNamed (f : File) : Entry → Bool
  | .file g _ => f.sameName g
  | .directory _ => false

/-- The names in a directory, `(ls $destenationDirectory).name`. -/
def names (path : Text) (s : Destination) : List Text :=
  if hasWildcard path then S.listed path s else (s path).map Entry.name

/-- The removal is passed over: the pattern is found, or it is no valid one and the condition
raises an error. -/
def spared (listing : List Text) (file : Text) : Bool :=
  let pattern := '*' :: file ++ ['*']
  (Wildcard.parse pattern).isNone || listing.any fun name => like name pattern

/-- `robocopy` finds the file in the directory. -/
def hasSame (entries : List Entry) (f : File) : Bool :=
  entries.any fun e =>
    match e with
    | .file g _ => f.sameName g && f.isSame g
    | .directory _ => false

/-- What is at the place of a file while it is copied and afterwards. -/
def put (entries : List Entry) (f : File) (complete : Bool) : List Entry :=
  entries.filter (fun e => !e.isNamed f) ++ [.file f complete]

/-- One command. -/
def execute (s : Destination) : MirrorCommand → Destination
  | .removeItem path =>
    if hasWildcard path then S.removed path s
    else Function.update s path ((s path).filter fun e => !e.isVbk)
  | .beginCopy path f => Function.update s path (put (s path) f false)
  | .endCopy path f => Function.update s path (put (s path) f true)

/-- The commands of a copy. -/
def copyCommands (path : Text) (f : File) : Outcome → List MirrorCommand
  | .complete => [.beginCopy path f, .endCopy path f]
  | .failed => []
  | .interrupted => [.beginCopy path f]

open Interruption (Block executed)

/-- One pass of the loop. -/
def blocks (outcome : Directory → Outcome) (my : Directory) :
    List (Block Destination MirrorCommand) :=
  match directoryTo S.globbed vbk my with
  | none => []
  | some item =>
    let path := destenationDirectory my
    ⟨fun s => !spared (names S path s) item.name, [.removeItem path]⟩ ::
      match my.file item.name with
      | none => []
      | some f => [⟨fun s => !hasSame (s path) f, copyCommands path f (outcome my)⟩]

/-- The commands of a run. -/
def commands (outcome : Directory → Outcome) (tree : SourceTree) (s : Destination) :
    List MirrorCommand :=
  executed (execute S) (tree.directories.flatMap (blocks S outcome)) s

/-- There is a complete backup. -/
def HasBackup (entries : List Entry) : Prop := ∃ e ∈ entries, e.isVbk = true ∧ ∃ f, e = .file f true

/-- The only backup is a newest file of the source. -/
def OnlyNewest (my : Directory) (entries : List Entry) : Prop :=
  ∃ f g, my.IsNewest vbk f ∧ entries.filter Entry.isVbk = [.file g true] ∧
    f.sameName g = true ∧ g.bytes = f.bytes

/-- Whatever becomes of the copies, no directory loses its last complete backup at any point,
and a directory whose copy succeeded has the newest one only. -/
def KeepsBackups (tree : SourceTree) (s : Destination) : Prop :=
  ∀ outcome : Directory → Outcome,
    (∀ k path, HasBackup (s path) →
      HasBackup (((commands S outcome tree s).take k).foldl (execute S) s path)) ∧
    ∀ my ∈ tree.directories, (directoryTo S.globbed vbk my).isSome → outcome my = .complete →
      OnlyNewest my ((commands S outcome tree s).foldl (execute S) s (destenationDirectory my))

/-- The newest file is there already, alone, and its name is found in the listing; or there is
nothing to lose, and what is there is removed or written over. -/
def Harmless (my : Directory) (f : File) (entries : List Entry) : Prop :=
  let kept := spared (entries.map Entry.name) f.name
  (OnlyNewest my entries ∧ kept = true ∧ hasSame entries f = true) ∨
    (¬HasBackup entries ∧ (kept = true →
      (∀ e ∈ entries, e.isVbk = true → e.isNamed f = true) ∧ hasSame entries f = false))

/-- Every directory with a backup has a path that is no pattern and a file as its newest item,
and nothing of its destination is lost. -/
def Safe (tree : SourceTree) (s : Destination) : Prop :=
  ∀ my ∈ tree.directories, ∀ item, directoryTo S.globbed vbk my = some item →
    hasWildcard my.fullName = false ∧
      ∃ f, item = .file f ∧ Harmless my f (s (destenationDirectory my))

end Mirror

/-! ## One directory of the destination -/

section Local

variable [Culture]

/-- A command in its directory. -/
def act (entries : List Entry) : MirrorCommand → List Entry
  | .removeItem _ => entries.filter fun e => !e.isVbk
  | .beginCopy _ f => put entries f false
  | .endCopy _ f => put entries f true

theorem execute_of_plain (S : Shell) {c : MirrorCommand} (hplain : hasWildcard c.path = false)
    (s : Destination) : execute S s c = Function.update s c.path (act (s c.path) c) := by
  cases c with
  | removeItem path =>
    have hpath : ¬hasWildcard path = true := Bool.eq_false_iff.mp hplain
    rw [execute, if_neg hpath]
    rfl
  | beginCopy | endCopy => rfl

/-- A directory sees the commands that are about it. -/
theorem foldl_execute (S : Shell) {cs : List MirrorCommand}
    (hplain : ∀ c ∈ cs, hasWildcard c.path = false) (s : Destination) (path : Text) :
    cs.foldl (execute S) s path = (cs.filter fun c => c.path = path).foldl act (s path) := by
  induction cs generalizing s with
  | nil => rfl
  | cons c cs ih =>
    obtain ⟨hc, hcs⟩ := List.forall_mem_cons.mp hplain
    rw [List.foldl_cons, ih hcs, execute_of_plain S hc]
    by_cases hpath : c.path = path
    · rw [List.filter_cons_of_pos (by simpa using hpath), List.foldl_cons, ← hpath,
        Function.update_self]
    · rw [List.filter_cons_of_neg (by simpa using hpath), Function.update_of_ne (Ne.symm hpath)]

/-- A file of the name of a backup is a backup. -/
theorem isVbk_of_isNamed {f : File} (hf : like f.name vbk = true) {e : Entry}
    (h : e.isNamed f = true) : e.isVbk = true := by
  cases e with
  | directory => cases h
  | file g complete =>
    rw [Entry.isNamed, File.sameName, eqIgnoreCase_iff] at h
    have hparse : Wildcard.parse vbk =
        some [.any, .letter '.', .letter 'v', .letter 'b', .letter 'k'] := by decide +kernel
    have hcongr : like g.name vbk = like f.name vbk := by
      rw [like, like, hparse]
      exact Wildcard.matchElements_congr (by simp) h.symm
    rw [Entry.isVbk, hcongr, hf]

variable {f : File} {entries : List Entry}

/-- The second writing replaces the first one. -/
theorem put_put (a b : Bool) : put (put entries f a) f b = put entries f b := by
  have hself : Entry.isNamed f (.file f a) = true := File.sameName_self f
  rw [put, put, put, List.filter_append, List.filter_filter]
  simp only [Bool.and_self, List.filter_cons, hself, Bool.not_true, Bool.false_eq_true, if_false,
    List.filter_nil, List.append_nil]

/-- The backups behind a copy. -/
theorem filter_put (hf : like f.name vbk = true) (complete : Bool) :
    (put entries f complete).filter Entry.isVbk =
      (entries.filter Entry.isVbk).filter (fun e => !e.isNamed f) ++ [.file f complete] := by
  have hself : Entry.isVbk (.file f complete) = true := hf
  rw [put, List.filter_append, List.filter_filter, List.filter_filter,
    List.filter_cons_of_pos hself, List.filter_nil]
  simp only [Bool.and_comm]

/-- What the removal leaves. -/
def remaining (f : File) (entries : List Entry) : List Entry :=
  if spared (entries.map Entry.name) f.name then entries
  else entries.filter fun e => !e.isVbk

/-- The commands for a directory, from what it contains. -/
def ownCommands (path : Text) (f : File) (outcome : Outcome) (entries : List Entry) :
    List MirrorCommand :=
  (if spared (entries.map Entry.name) f.name then [] else [.removeItem path]) ++
    if hasSame (remaining f entries) f then [] else copyCommands path f outcome

/-- What is required of one directory. -/
def KeepsOwn (my : Directory) (path : Text) (f : File) (entries : List Entry) : Prop :=
  ∀ outcome,
    (∀ j, HasBackup entries →
      HasBackup (((ownCommands path f outcome entries).take j).foldl act entries)) ∧
    (outcome = .complete → OnlyNewest my ((ownCommands path f outcome entries).foldl act entries))

theorem hasBackup_iff : HasBackup entries ↔ ∃ g, .file g true ∈ entries.filter Entry.isVbk := by
  constructor
  · rintro ⟨_, he, hvbk, g, rfl⟩
    exact ⟨g, List.mem_filter.mpr ⟨he, hvbk⟩⟩
  · rintro ⟨g, hg⟩
    obtain ⟨he, hvbk⟩ := List.mem_filter.mp hg
    exact ⟨_, he, hvbk, g, rfl⟩

theorem OnlyNewest.hasBackup {my : Directory} (h : OnlyNewest my entries) : HasBackup entries := by
  obtain ⟨-, g, -, hvbk, -⟩ := h
  exact hasBackup_iff.mpr ⟨g, hvbk ▸ List.mem_singleton_self _⟩

/-- Behind the removal there is no backup. -/
theorem filter_removed : (entries.filter fun e => !e.isVbk).filter Entry.isVbk = [] := by
  rw [List.filter_filter, List.filter_eq_nil_iff]
  intro e _ h
  rw [Bool.and_eq_true, Bool.not_eq_true'] at h
  exact Bool.false_ne_true (h.2.symm.trans h.1)

/-- Behind the removal there is nothing that the copy could find. -/
theorem hasSame_removed (hf : like f.name vbk = true) :
    hasSame (entries.filter fun e => !e.isVbk) f = false := by
  rw [hasSame, List.any_eq_false]
  intro e he h
  obtain ⟨-, hvbk⟩ := List.mem_filter.mp he
  cases e with
  | directory => cases h
  | file g complete =>
    have hnamed : Entry.isNamed f (.file g complete) = true := (Bool.and_eq_true_iff.mp h).1
    rw [isVbk_of_isNamed hf hnamed] at hvbk
    cases hvbk

/-- Behind a copy that succeeds the file is the only backup exactly if no other name was
left. -/
theorem onlyNewest_put_iff {my : Directory} (hnewest : my.IsNewest vbk f)
    (hf : like f.name vbk = true) : OnlyNewest my (put entries f true) ↔
      ∀ e ∈ entries, e.isVbk = true → e.isNamed f = true := by
  have hnone : (entries.filter Entry.isVbk).filter (fun e => !e.isNamed f) = [] ↔
      ∀ e ∈ entries, e.isVbk = true → e.isNamed f = true := by
    simp only [List.filter_eq_nil_iff, List.mem_filter, and_imp, Bool.not_eq_true',
      Bool.not_eq_false]
  rw [← hnone]
  constructor
  · rintro ⟨-, g, -, hvbk, -⟩
    rw [filter_put hf, ← List.nil_append [Entry.file g true]] at hvbk
    exact (List.append_inj' hvbk rfl).1
  · intro hnil
    refine ⟨f, f, hnewest, ?_, File.sameName_self f, rfl⟩
    rw [filter_put hf, hnil, List.nil_append]

/-- A copy that is made leaves a backup alone or loses one. -/
theorem KeepsOwn.not_copied {my : Directory} {path : Text} (h : KeepsOwn my path f entries)
    (hnewest : my.IsNewest vbk f) (hf : like f.name vbk = true) (hbackup : HasBackup entries)
    (hkept : spared (entries.map Entry.name) f.name = true) : hasSame entries f = true := by
  by_contra hsame
  obtain ⟨hpoints, hend⟩ := h .complete
  have hcommands : ownCommands path f .complete entries =
      [.beginCopy path f, .endCopy path f] := by
    rw [ownCommands, remaining, if_pos hkept, if_pos hkept, if_neg hsame]
    rfl
  rw [hcommands] at hpoints hend
  have hfinal : OnlyNewest my (put (put entries f false) f true) := hend rfl
  rw [put_put, onlyNewest_put_iff hnewest hf] at hfinal
  have hpoint : HasBackup (put entries f false) := hpoints 1 hbackup
  obtain ⟨g, hg⟩ := hasBackup_iff.mp hpoint
  rw [filter_put hf, List.mem_append, List.mem_singleton] at hg
  rcases hg with hg | hg
  · obtain ⟨hmem, hother⟩ := List.mem_filter.mp hg
    obtain ⟨hmem, hvbk⟩ := List.mem_filter.mp hmem
    rw [hfinal _ hmem hvbk] at hother
    cases hother
  · cases hg

theorem KeepsOwn.harmless {my : Directory} {path : Text} (h : KeepsOwn my path f entries)
    (hnewest : my.IsNewest vbk f) (hf : like f.name vbk = true) : Harmless my f entries := by
  by_cases hbackup : HasBackup entries
  · left
    have hkept : spared (entries.map Entry.name) f.name = true := by
      by_contra hkept
      have hremoved : HasBackup (entries.filter fun e => !e.isVbk) := by
        have hpoint := (h .failed).1 1 hbackup
        rwa [ownCommands, if_neg hkept, List.singleton_append, List.take_succ_cons, List.take_zero,
          List.foldl_cons, List.foldl_nil] at hpoint
      obtain ⟨g, hg⟩ := hasBackup_iff.mp hremoved
      rw [filter_removed] at hg
      cases hg
    have hsame := h.not_copied hnewest hf hbackup hkept
    refine ⟨?_, hkept, hsame⟩
    have hend := (h .complete).2 rfl
    rwa [ownCommands, remaining, if_pos hkept, if_pos hkept, if_pos hsame] at hend
  · refine Or.inr ⟨hbackup, fun hkept => ?_⟩
    have hend := (h .complete).2 rfl
    have hsame : ¬hasSame entries f = true := by
      intro hsame
      rw [ownCommands, remaining, if_pos hkept, if_pos hkept, if_pos hsame] at hend
      exact hbackup hend.hasBackup
    rw [ownCommands, remaining, if_pos hkept, if_pos hkept, if_neg hsame] at hend
    have hput : OnlyNewest my (put (put entries f false) f true) := hend
    rw [put_put, onlyNewest_put_iff hnewest hf] at hput
    exact ⟨hput, Bool.eq_false_iff.mpr hsame⟩

theorem Harmless.keepsOwn {my : Directory} (h : Harmless my f entries) (path : Text)
    (hnewest : my.IsNewest vbk f) (hf : like f.name vbk = true) :
    KeepsOwn my path f entries := by
  intro outcome
  rcases h with ⟨honly, hkept, hsame⟩ | ⟨hbackup, hleft⟩
  · have hnone : ownCommands path f outcome entries = [] := by
      rw [ownCommands, remaining, if_pos hkept, if_pos hkept, if_pos hsame]
      rfl
    rw [hnone]
    exact ⟨fun j hb => by rwa [List.take_nil], fun _ => honly⟩
  · refine ⟨fun _ hb => absurd hb hbackup, ?_⟩
    rintro rfl
    by_cases hkept : spared (entries.map Entry.name) f.name = true
    · obtain ⟨hnames, hsame⟩ := hleft hkept
      rw [ownCommands, remaining, if_pos hkept, if_pos hkept, hsame]
      change OnlyNewest my (put (put entries f false) f true)
      rw [put_put, onlyNewest_put_iff hnewest hf]
      exact hnames
    · rw [ownCommands, remaining, if_neg hkept, if_neg hkept, hasSame_removed hf]
      change OnlyNewest my (put (put (entries.filter fun e => !e.isVbk) f false) f true)
      rw [put_put, onlyNewest_put_iff hnewest hf]
      intro e he hvbk
      have hmem := List.mem_filter.mpr ⟨he, hvbk⟩
      rw [filter_removed] at hmem
      cases hmem

end Local

/-! ## The paths of the destination -/

section Paths

/-- Where no two backslashes follow each other the server is not found again. -/
theorem destenationDirectory_eq {my : Directory} {rest : Text}
    (hname : my.fullName = server ++ rest) (h : ¬['\\', '\\'] <:+: rest) :
    destenationDirectory my = "E:".toList ++ rest := by
  have hserver : ∃ tail, server = ['\\', '\\'] ++ tail := ⟨_, rfl⟩
  obtain ⟨tail, htail⟩ := hserver
  have hne : server ≠ [] := by
    rw [htail]
    exact List.cons_ne_nil _ _
  have hnot : ¬server <:+: rest := fun hwithin =>
    h ((htail ▸ List.prefix_append _ tail).isInfix.trans hwithin)
  rw [destenationDirectory, hname, replace_append_left hne,
    replace_eq_self hne _ (contains_eq_false_iff.mpr hnot)]

theorem hasWildcard_destenationDirectory {my : Directory} {rest : Text}
    (hname : my.fullName = server ++ rest) (h : ¬['\\', '\\'] <:+: rest) :
    hasWildcard (destenationDirectory my) = hasWildcard my.fullName := by
  have hserver : hasWildcard server = false := by decide +kernel
  have hdrive : hasWildcard "E:".toList = false := by decide +kernel
  rw [hasWildcard] at hserver hdrive
  rw [destenationDirectory_eq hname h, hname, hasWildcard, hasWildcard, List.any_append,
    List.any_append, hserver, hdrive]

/-- Different directories have different destinations. -/
theorem SourceTree.pairwise_destenationDirectory [Culture] (tree : SourceTree) :
    tree.directories.Pairwise fun my other =>
      destenationDirectory my ≠ destenationDirectory other := by
  refine (List.pairwise_map.mp tree.distinct).imp_of_mem fun {my other} hmy hother hne heq => ?_
  obtain ⟨rest, hname, hsingle⟩ := tree.below my hmy
  obtain ⟨rest', hname', hsingle'⟩ := tree.below other hother
  rw [destenationDirectory_eq hname hsingle, destenationDirectory_eq hname' hsingle'] at heq
  rw [List.append_cancel_left heq] at hname
  exact hne (hname.trans hname'.symm)

end Paths

/-! ## The run -/

section Run

variable [Culture] (S : Shell) (outcome : Directory → Outcome)

/-- What is found in a directory is a file, and the path of the destination is no pattern. -/
def Plain (my : Directory) : Prop :=
  ∀ item, directoryTo S.globbed vbk my = some item →
    hasWildcard (destenationDirectory my) = false ∧
      ∃ f, item = .file f ∧ my.file f.name = some f

/-- The commands for a directory in a state of the destination. -/
def own (s : Destination) (my : Directory) : List MirrorCommand :=
  match directoryTo S.globbed vbk my with
  | some (.file f) =>
    ownCommands (destenationDirectory my) f (outcome my) (s (destenationDirectory my))
  | _ => []

variable {S outcome}

theorem path_of_mem_own {s : Destination} {my : Directory} {c : MirrorCommand}
    (hc : c ∈ own S outcome s my) : c.path = destenationDirectory my := by
  unfold own at hc
  split at hc
  · rw [ownCommands, List.mem_append] at hc
    rcases hc with hc | hc
    · split_ifs at hc
      · cases hc
      · rw [List.mem_singleton.mp hc]
        rfl
    · split_ifs at hc
      · cases hc
      · cases houtcome : outcome my <;> rw [houtcome] at hc <;>
          simp only [copyCommands, List.mem_cons, List.not_mem_nil, or_false] at hc
        · rcases hc with rfl | rfl <;> rfl
        · rw [hc]
          rfl
  · cases hc

theorem hasWildcard_of_mem_own {s : Destination} {my : Directory} (hplain : Plain S my)
    {c : MirrorCommand} (hc : c ∈ own S outcome s my) : hasWildcard c.path = false := by
  rw [path_of_mem_own hc]
  cases hitem : directoryTo S.globbed vbk my with
  | none =>
    rw [own, hitem] at hc
    cases hc
  | some item => exact (hplain item hitem).1

theorem filter_own_of_ne {s : Destination} {my : Directory} {path : Text}
    (hne : destenationDirectory my ≠ path) :
    ((own S outcome s my).filter fun c => c.path = path) = [] := by
  rw [List.filter_eq_nil_iff]
  intro c hc
  rw [path_of_mem_own hc, decide_eq_true_eq]
  exact hne

theorem filter_own_self {s : Destination} {my : Directory} :
    ((own S outcome s my).filter fun c => c.path = destenationDirectory my) =
      own S outcome s my := by
  rw [List.filter_eq_self]
  intro c hc
  rw [path_of_mem_own hc, decide_eq_true_eq]

/-- The commands are those that the blocks execute. -/
theorem executed_blocks {my : Directory} (hplain : Plain S my) (s : Destination) :
    Interruption.executed (execute S) (blocks S outcome my) s = own S outcome s my := by
  cases hitem : directoryTo S.globbed vbk my with
  | none => simp only [blocks, own, hitem, Interruption.executed]
  | some item =>
    obtain ⟨hpath, f, rfl, hfile⟩ := hplain item hitem
    have hpath := Bool.eq_false_iff.mp hpath
    have hnames : names S (destenationDirectory my) s =
        (s (destenationDirectory my)).map Entry.name := if_neg hpath
    have hremoved : execute S s (.removeItem (destenationDirectory my)) (destenationDirectory my) =
        (s (destenationDirectory my)).filter fun e => !e.isVbk := by
      rw [execute, if_neg hpath, Function.update_self]
    have hcopy : ∀ s : Destination, Interruption.executed (execute S)
        [⟨fun s => !hasSame (s (destenationDirectory my)) f,
          copyCommands (destenationDirectory my) f (outcome my)⟩] s =
        if hasSame (s (destenationDirectory my)) f then []
        else copyCommands (destenationDirectory my) f (outcome my) := by
      intro s
      cases hsame : hasSame (s (destenationDirectory my)) f with
      | true =>
        rw [Interruption.executed_of_false (by rw [hsame]; rfl), if_pos rfl]
        rfl
      | false =>
        rw [Interruption.executed_of_true (by rw [hsame]; rfl), if_neg Bool.false_ne_true]
        exact List.append_nil _
    simp only [blocks, own, hitem, Item.name, hfile]
    cases hspared : spared ((s (destenationDirectory my)).map Entry.name) f.name with
    | true =>
      rw [Interruption.executed_of_false (by rw [hnames, hspared]; rfl), hcopy, ownCommands,
        remaining, if_pos hspared, if_pos hspared, List.nil_append]
    | false =>
      have hspared' := Bool.eq_false_iff.mp hspared
      rw [Interruption.executed_of_true (by rw [hnames, hspared]; rfl), hcopy, ownCommands,
        remaining, if_neg hspared', if_neg hspared', List.foldl_cons, List.foldl_nil, hremoved]

/-- Every directory has its own commands, as they are in the state before the run. -/
theorem executed_flatMap {ds : List Directory} (hplain : ∀ my ∈ ds, Plain S my)
    (hpairwise : ds.Pairwise fun my other =>
      destenationDirectory my ≠ destenationDirectory other) (s : Destination) :
    Interruption.executed (execute S) (ds.flatMap (blocks S outcome)) s =
      ds.flatMap (own S outcome s) := by
  induction ds generalizing s with
  | nil => rfl
  | cons my ds ih =>
    obtain ⟨hmy, hds⟩ := List.forall_mem_cons.mp hplain
    obtain ⟨hne, hpairwise⟩ := List.pairwise_cons.mp hpairwise
    rw [List.flatMap_cons, Interruption.executed_append, executed_blocks hmy, ih hds hpairwise,
      List.flatMap_cons]
    congr 1
    have hown : ∀ (s' : Destination) (other : Directory), s' (destenationDirectory other) =
        s (destenationDirectory other) → own S outcome s' other = own S outcome s other := by
      intro s' other h
      rw [own, own, h]
    refine List.flatMap_congr fun other hother => hown _ other ?_
    rw [foldl_execute S fun c hc => hasWildcard_of_mem_own hmy hc,
      filter_own_of_ne (hne other hother), List.foldl_nil]

/-- The commands that a directory of the destination sees. -/
theorem filter_flatMap_own {ds : List Directory}
    (hpairwise : ds.Pairwise fun my other =>
      destenationDirectory my ≠ destenationDirectory other) (s : Destination) {my : Directory}
    (hmy : my ∈ ds) :
    (ds.flatMap (own S outcome s)).filter (fun c => c.path = destenationDirectory my) =
      own S outcome s my := by
  obtain ⟨before, after, rfl⟩ := List.append_of_mem hmy
  rw [List.pairwise_append, List.pairwise_cons] at hpairwise
  obtain ⟨-, ⟨hafter, -⟩, hbefore⟩ := hpairwise
  have hnone : ∀ ds : List Directory,
      (∀ other ∈ ds, destenationDirectory other ≠ destenationDirectory my) →
        (ds.flatMap (own S outcome s)).filter (fun c => c.path = destenationDirectory my) = [] := by
    intro ds hds
    rw [List.filter_flatMap, List.flatMap_eq_nil_iff]
    exact fun other hother => filter_own_of_ne (hds other hother)
  rw [List.flatMap_append, List.flatMap_cons, List.filter_append, List.filter_append,
    hnone before fun other hother => hbefore other hother my List.mem_cons_self,
    hnone after fun other hother => (hafter other hother).symm, filter_own_self, List.nil_append,
    List.append_nil]

end Run

/-- The first commands of a kind are among the first commands. -/
theorem exists_take_filter {α : Type*} (p : α → Bool) (cs : List α) (j : Nat) :
    ∃ k, (cs.take k).filter p = (cs.filter p).take j := by
  induction cs generalizing j with
  | nil => exact ⟨0, by rw [List.take_nil, List.filter_nil, List.take_nil]⟩
  | cons c cs ih =>
    by_cases hc : p c = true
    · cases j with
      | zero => exact ⟨0, by rw [List.take_zero, List.take_zero, List.filter_nil]⟩
      | succ j =>
        obtain ⟨k, hk⟩ := ih j
        exact ⟨k + 1, by rw [List.take_succ_cons, List.filter_cons_of_pos hc,
          List.filter_cons_of_pos hc, List.take_succ_cons, hk]⟩
    · obtain ⟨k, hk⟩ := ih j
      exact ⟨k + 1, by rw [List.take_succ_cons, List.filter_cons_of_neg hc,
        List.filter_cons_of_neg hc, hk]⟩

section Runs

variable [Culture] {S : Shell} {tree : SourceTree} {s : Destination}

/-- Wherever the run is cut off, a directory has seen the first of its own commands. -/
theorem foldl_take_commands (hplain : ∀ my ∈ tree.directories, Plain S my)
    (outcome : Directory → Outcome) (k : Nat) (path : Text) :
    ((commands S outcome tree s).take k).foldl (execute S) s path =
      (((tree.directories.flatMap (own S outcome s)).take k).filter fun c =>
        c.path = path).foldl act (s path) := by
  rw [commands, executed_flatMap hplain tree.pairwise_destenationDirectory]
  refine foldl_execute S (fun c hc => ?_) s path
  obtain ⟨my, hmy, hc⟩ := List.mem_flatMap.mp (List.mem_of_mem_take hc)
  exact hasWildcard_of_mem_own (hplain my hmy) hc

/-- In the end a directory has seen all of its own commands. -/
theorem foldl_commands (hplain : ∀ my ∈ tree.directories, Plain S my)
    (outcome : Directory → Outcome) {my : Directory} (hmy : my ∈ tree.directories) :
    (commands S outcome tree s).foldl (execute S) s (destenationDirectory my) =
      (own S outcome s my).foldl act (s (destenationDirectory my)) := by
  have hpairwise := tree.pairwise_destenationDirectory
  have htake := foldl_take_commands (s := s) hplain outcome
    (commands S outcome tree s).length (destenationDirectory my)
  rw [List.take_length, commands, executed_flatMap hplain hpairwise, List.take_length,
    filter_flatMap_own hpairwise s hmy] at htake
  rw [commands, executed_flatMap hplain hpairwise]
  exact htake

theorem own_of_directoryTo (outcome : Directory → Outcome) {my : Directory} {f : File}
    (hf : directoryTo S.globbed vbk my = some (.file f)) : own S outcome s my =
      ownCommands (destenationDirectory my) f (outcome my) (s (destenationDirectory my)) := by
  rw [own, hf]

/-- No command is for a path that belongs to no directory. -/
theorem filter_take_own_eq_nil (outcome : Directory → Outcome) (k : Nat) {path : Text}
    (hpath : ¬∃ my ∈ tree.directories, destenationDirectory my = path) :
    ((tree.directories.flatMap (own S outcome s)).take k).filter
      (fun c => c.path = path) = [] := by
  rw [List.filter_eq_nil_iff]
  intro c hc
  obtain ⟨my, hmy, hc⟩ := List.mem_flatMap.mp (List.mem_of_mem_take hc)
  rw [path_of_mem_own hc, decide_eq_true_eq]
  exact fun heq => hpath ⟨my, hmy, heq⟩

/-- The run keeps the backups exactly if the commands for each directory do. -/
theorem keepsBackups_iff_keepsOwn (hplain : ∀ my ∈ tree.directories, Plain S my) :
    KeepsBackups S tree s ↔ ∀ my ∈ tree.directories, ∀ f,
      directoryTo S.globbed vbk my = some (.file f) →
        KeepsOwn my (destenationDirectory my) f (s (destenationDirectory my)) := by
  have hpairwise := tree.pairwise_destenationDirectory
  constructor
  · intro h my hmy f hf outcome
    obtain ⟨hpoints, hend⟩ := h fun _ => outcome
    constructor
    · intro j hbackup
      obtain ⟨k, hk⟩ := exists_take_filter
        (fun c : MirrorCommand => decide (c.path = destenationDirectory my))
        (tree.directories.flatMap (own S (fun _ => outcome) s)) j
      have hpoint := hpoints k (destenationDirectory my) hbackup
      rwa [foldl_take_commands hplain, hk, filter_flatMap_own hpairwise s hmy,
        own_of_directoryTo _ hf] at hpoint
    · intro hcomplete
      have honly := hend my hmy (by rw [hf]; rfl) hcomplete
      rwa [foldl_commands hplain _ hmy, own_of_directoryTo _ hf] at honly
  · intro h outcome
    constructor
    · intro k path hbackup
      rw [foldl_take_commands hplain]
      by_cases hpath : ∃ my ∈ tree.directories, destenationDirectory my = path
      · obtain ⟨my, hmy, rfl⟩ := hpath
        have hprefix := (List.take_prefix k (tree.directories.flatMap (own S outcome s))).filter
          fun c => decide (c.path = destenationDirectory my)
        rw [filter_flatMap_own hpairwise s hmy] at hprefix
        rw [List.prefix_iff_eq_take.mp hprefix]
        cases hitem : directoryTo S.globbed vbk my with
        | none =>
          have hnone : own S outcome s my = [] := by rw [own, hitem]
          rwa [hnone, List.take_nil]
        | some item =>
          obtain ⟨-, f, rfl, -⟩ := hplain my hmy item hitem
          rw [own_of_directoryTo outcome hitem]
          exact (h my hmy f hitem (outcome my)).1 _ hbackup
      · rwa [filter_take_own_eq_nil outcome k hpath]
    · intro my hmy hsome hcomplete
      obtain ⟨item, hitem⟩ := Option.isSome_iff_exists.mp hsome
      obtain ⟨-, f, rfl, -⟩ := hplain my hmy item hitem
      rw [foldl_commands hplain outcome hmy, own_of_directoryTo outcome hitem]
      exact (h my hmy f hitem (outcome my)).2 hcomplete

/-- The newest item of a directory whose path is no pattern is a file. -/
def Regular (S : Shell) (my : Directory) : Prop :=
  ∀ item, directoryTo S.globbed vbk my = some item →
    hasWildcard my.fullName = false ∧ ∃ f, item = .file f

theorem Regular.plain {my : Directory} (h : Regular S my) (hmy : my ∈ tree.directories) :
    Plain S my := by
  intro item hitem
  obtain ⟨rest, hname, hsingle⟩ := tree.below my hmy
  obtain ⟨hfull, f, rfl⟩ := h item hitem
  have hmem := (directoryTo_eq_some hitem).1
  rw [getChildItem, hfull, if_neg Bool.false_ne_true] at hmem
  refine ⟨by rw [hasWildcard_destenationDirectory hname hsingle, hfull], f, rfl, ?_⟩
  exact tree.file my hmy f (List.mem_of_mem_filter hmem)

/-- Where every newest item is a file of a directory whose path is no pattern, the run keeps
the backups exactly if it is harmless for each directory. -/
theorem keepsBackups_iff_harmless (hregular : ∀ my ∈ tree.directories, Regular S my) :
    KeepsBackups S tree s ↔ ∀ my ∈ tree.directories, ∀ f,
      directoryTo S.globbed vbk my = some (.file f) →
        Harmless my f (s (destenationDirectory my)) := by
  rw [keepsBackups_iff_keepsOwn fun my hmy => (hregular my hmy).plain hmy]
  refine forall₂_congr fun my hmy => forall₂_congr fun f hf => ?_
  have hnewest := isNewest_of_directoryTo (hregular my hmy _ hf).1 hf
  have hvbk : like f.name vbk = true := (List.mem_filter.mp hnewest.1).2
  exact ⟨fun h => h.harmless hnewest hvbk, fun h => h.keepsOwn _ hnewest hvbk⟩

/-- The loop keeps the backups of every directory, whatever becomes of the copies, if it is
safe for each directory; and only then, where every newest item is a file of a directory whose
path is no pattern. -/
theorem keepsBackups_of_safe (S : Shell) (tree : SourceTree) (s : Destination) :
    (Safe S tree s → KeepsBackups S tree s) ∧
      ((∀ my ∈ tree.directories, Regular S my) → KeepsBackups S tree s → Safe S tree s) := by
  constructor
  · intro h
    have hregular : ∀ my ∈ tree.directories, Regular S my := by
      intro my hmy item hitem
      obtain ⟨hfull, f, hf, -⟩ := h my hmy item hitem
      exact ⟨hfull, f, hf⟩
    rw [keepsBackups_iff_harmless hregular]
    intro my hmy f hf
    obtain ⟨-, f', hf', hharmless⟩ := h my hmy _ hf
    obtain rfl := Item.file.inj hf'
    exact hharmless
  · intro hregular h my hmy item hitem
    obtain ⟨hfull, f, rfl⟩ := hregular my hmy item hitem
    exact ⟨hfull, f, rfl, (keepsBackups_iff_harmless hregular).mp h my hmy f hitem⟩

end Runs

section Example

local instance asciiMirror : Culture := Culture.ascii

/-- A shell that finds nothing for a pattern. -/
def quietShell : Shell := ⟨fun _ => [], fun _ _ => [], fun _ s => s⟩

/-- The new backup of one machine. -/
def oneMachine : SourceTree where
  directories := [⟨server ++ "\\Backup\\VEEAMzip\\vm1".toList,
    [.file ⟨"vm1D2024.vbk".toList, 2, [2]⟩]⟩]
  below my hmy := ⟨"\\Backup\\VEEAMzip\\vm1".toList, by
    rw [List.mem_singleton.mp hmy], by decide +kernel⟩
  distinct := List.pairwise_singleton _ _
  file my hmy f hf := by
    rw [List.mem_singleton.mp hmy] at hf ⊢
    rw [List.mem_singleton] at hf
    rw [Item.file.inj hf]
    decide +kernel

/-- The old backup of that machine. -/
def oldBackup : Destination := fun _ => [.file ⟨"vm1D2023.vbk".toList, 1, [1]⟩ true]

/-- The copy fails, and the old backup is removed already. -/
theorem oneMachine_not_keepsBackups : ¬KeepsBackups quietShell oneMachine oldBackup := by
  intro h
  obtain ⟨e, he, -⟩ := (h fun _ => .failed).1 1 "E:\\Backup\\VEEAMzip\\vm1".toList
    ⟨_, List.mem_singleton_self _, by decide +kernel, _, rfl⟩
  have hnothing : ((commands quietShell (fun _ => .failed) oneMachine oldBackup).take 1).foldl
      (execute quietShell) oldBackup "E:\\Backup\\VEEAMzip\\vm1".toList = [] := by
    decide +kernel
  rw [hnothing] at he
  cases he

end Example

end OpsScripts.FileSync
