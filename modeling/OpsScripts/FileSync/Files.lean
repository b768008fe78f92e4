import Mathlib.Order.Basic
import OpsScripts.Core.Wildcard

/-!
# Files that are copied

The copy jobs visit directories, choose the newest file of a kind in each of them and hand
its name to `robocopy`. A path is taken for a pattern by the cmdlets if it contains a
wildcard character; what they find then is left open.
-/

namespace OpsScripts.FileSync

/-- A file. -/
structure File where
  name : Text
  lastWriteTime : Nat
  bytes : List UInt8
  deriving DecidableEq

/-- What a directory contains. -/
inductive Item where
  | file (f : File)
  | directory (name : Text) (lastWriteTime : Nat)
  deriving DecidableEq

/-- `Name`. -/
def Item.name : Item → Text
  | .file f => f.name
  | .directory name _ => name

/-- `LastWriteTime`. -/
def Item.lastWriteTime : Item → Nat
  | .file f => f.lastWriteTime
  | .directory _ lastWriteTime => lastWriteTime

/-- The file, if it is one. -/
def Item.file? : Item → Option File
  | .file f => some f
  | .directory _ _ => none

@[simp] theorem Item.file?_eq_some {item : Item} {f : File} :
    item.file? = some f ↔ item = .file f := by
  cases item <;> simp [Item.file?]

/-- A directory that is visited. -/
structure Directory where
  fullName : Text
  items : List Item
  deriving DecidableEq

/-- What the cmdlets find for a path with wildcard characters. -/
abbrev Globbing := Text → List Item

/-- A path is taken for a pattern. -/
def hasWildcard (path : Text) : Bool :=
  path.any fun c => c == '*' || c == '?' || c == '[' || c == ']'

/-- `robocopy` takes two files for the same one: they agree in size and time. -/
def File.isSame (f g : File) : Bool :=
  f.bytes.length == g.bytes.length && f.lastWriteTime == g.lastWriteTime

theorem File.isSame_iff {f g : File} :
    f.isSame g = true ↔ f.bytes.length = g.bytes.length ∧ f.lastWriteTime = g.lastWriteTime := by
  rw [File.isSame, Bool.and_eq_true, beq_iff_eq, beq_iff_eq]

theorem File.isSame_self (f : File) : f.isSame f = true := File.isSame_iff.mpr ⟨rfl, rfl⟩

theorem File.isSame_comm {f g : File} : f.isSame g = true ↔ g.isSame f = true := by
  rw [File.isSame_iff, File.isSame_iff]
  exact and_congr eq_comm eq_comm

theorem File.isSame_trans {f g h : File} (hfg : f.isSame g = true) (hgh : g.isSame h = true) :
    f.isSame h = true := by
  rw [File.isSame_iff] at hfg hgh ⊢
  exact ⟨hfg.1.trans hgh.1, hfg.2.trans hgh.2⟩

section Selection

variable [Culture]

/-- Two files have one name. -/
def File.sameName (f g : File) : Bool := eqIgnoreCase f.name g.name

theorem File.sameName_self (f : File) : f.sameName f = true := eqIgnoreCase_self f.name

theorem File.sameName_comm {f g : File} : f.sameName g = true ↔ g.sameName f = true := by
  rw [File.sameName, File.sameName, eqIgnoreCase_iff, eqIgnoreCase_iff, eq_comm]

theorem File.sameName_trans {f g h : File} (hfg : f.sameName g = true) (hgh : g.sameName h = true) :
    f.sameName h = true := by
  rw [File.sameName, eqIgnoreCase_iff] at hfg hgh ⊢
  exact hfg.trans hgh

variable (globbed : Globbing) (filter : Text)

/-- `Get-ChildItem -Path $my.fullname -filter filter`. -/
def getChildItem (my : Directory) : List Item :=
  (if hasWildcard my.fullName then globbed my.fullName else my.items).filter fun item =>
    like item.name filter

/-- `$DirectoryTo`: `… | Sort-Object lastwritetime | Select-Object -last 1`. -/
def directoryTo (my : Directory) : Option Item :=
  ((getChildItem globbed filter my).mergeSort fun a b =>
    decide (a.lastWriteTime ≤ b.lastWriteTime)).getLast?

/-- The files of a directory that the filter lets pass. -/
def Directory.files (my : Directory) : List File :=
  (my.items.filterMap Item.file?).filter fun f => like f.name filter

/-- The file of a directory that has a name. -/
def Directory.file (my : Directory) (name : Text) : Option File :=
  (my.items.filterMap Item.file?).find? fun f => eqIgnoreCase f.name name

/-- A newest one of these files. -/
def Directory.IsNewest (my : Directory) (f : File) : Prop :=
  f ∈ my.files filter ∧ ∀ g ∈ my.files filter, g.lastWriteTime ≤ f.lastWriteTime

variable {globbed filter}

/-- The chosen item is one of the listing and as new as any other. -/
theorem directoryTo_eq_some {my : Directory} {item : Item}
    (h : directoryTo globbed filter my = some item) :
    item ∈ getChildItem globbed filter my ∧
      ∀ other ∈ getChildItem globbed filter my, other.lastWriteTime ≤ item.lastWriteTime := by
  let le := fun a b : Item => decide (a.lastWriteTime ≤ b.lastWriteTime)
  have hsorted : ((getChildItem globbed filter my).mergeSort le).Pairwise fun a b => le a b :=
    List.pairwise_mergeSort
      (fun a b c hab hbc => decide_eq_true ((of_decide_eq_true hab).trans (of_decide_eq_true hbc)))
      (fun a b => by
        rw [Bool.or_eq_true, decide_eq_true_eq, decide_eq_true_eq]
        exact Nat.le_total _ _) _
  obtain ⟨before, hbefore⟩ := List.getLast?_eq_some_iff.mp h
  rw [hbefore, List.pairwise_append] at hsorted
  have hmem : ∀ other, other ∈ getChildItem globbed filter my ↔ other ∈ before ++ [item] := by
    intro other
    rw [← hbefore, List.mem_mergeSort]
  refine ⟨(hmem item).mpr (List.mem_append_right _ (List.mem_singleton_self item)),
    fun other hother => ?_⟩
  rcases List.mem_append.mp ((hmem other).mp hother) with hother | hother
  · exact of_decide_eq_true (hsorted.2.2 other hother item (List.mem_singleton_self item))
  · exact (List.mem_singleton.mp hother) ▸ le_rfl

/-- A file that was chosen in a directory whose path is no pattern is a newest one. -/
theorem isNewest_of_directoryTo {my : Directory} {f : File}
    (hplain : hasWildcard my.fullName = false)
    (h : directoryTo globbed filter my = some (.file f)) : my.IsNewest filter f := by
  have hlisted : ∀ g, g ∈ my.files filter ↔ .file g ∈ getChildItem globbed filter my := by
    intro g
    rw [getChildItem, hplain, Directory.files, List.mem_filter, List.mem_filter,
      List.mem_filterMap]
    simp only [Item.file?_eq_some, exists_eq_right, Bool.false_eq_true, if_false, Item.name]
  obtain ⟨hmem, hle⟩ := directoryTo_eq_some h
  exact ⟨(hlisted f).mpr hmem, fun g hg => hle (.file g) ((hlisted g).mp hg)⟩

end Selection

end OpsScripts.FileSync
