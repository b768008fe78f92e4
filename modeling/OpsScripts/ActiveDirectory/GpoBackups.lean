import Mathlib.Data.List.Pairwise
import OpsScripts.Core.Calendar
import OpsScripts.Core.DateTime

/-!
# `GPO_Backups.ps1`

Each start backs up the group policies into a directory with the name of the day, on the disk and
on a share, and removes from the disk the directory of one day, 33 days before. So the directory
of a day goes only if there is a start on the one day that removes it.
-/

namespace OpsScripts.ActiveDirectory

open Calendar (Parts parts parts_le parts_injective year_parts_lt)
open DateTime (two notMem_two)

/-- `ToString` of a date with the day, the month and the year of four digits. -/
def dateText (separator : Char) (date : Nat) : Text :=
  let p := parts date
  two p.day ++ separator :: (two p.month ++ separator ::
    (two (p.year / 100) ++ two (p.year % 100)))

/-- The dates that `DateTime` has, as days since the first of January of the year 1. -/
def maxDate : Nat := 3652058

/-- A start, with the policies that are backed up. `AddDays` needs a day 33 days before. -/
structure Start where
  today : Nat
  gpos : List Text
  first : 33 ≤ today
  last : today ≤ maxDate

/-- The directories on the disk and on the share, with the backups in them. -/
structure Backups where
  disk : Text → Option (List Text)
  share : Text → Option (List Text)

/-- `$Todelete`, behind the path. -/
def Start.todelete (start : Start) : Text :=
  match (dateText '-' (start.today - 33)).splitOn '-' with
  | [day, month, year] => day ++ '.' :: (month ++ '.' :: year)
  | _ => []

/-- `mkdir`; an error leaves what is there. -/
def mkdir (name : Text) (directories : Text → Option (List Text)) : Text → Option (List Text) :=
  Function.update directories name (some ((directories name).getD []))

/-- `Backup-Gpo` for each policy. -/
def backupGpo (name : Text) (gpos : List Text) (directories : Text → Option (List Text)) :
    Text → Option (List Text) :=
  Function.update directories name ((directories name).map fun backups => backups ++ gpos)

/-- One start of the script. -/
def gpoBackups (B : Backups) (start : Start) : Backups :=
  let date := dateText '.' start.today
  let deletetrigger := (B.disk start.todelete).isSome
  let disk := backupGpo date start.gpos (mkdir date B.disk)
  { disk := if deletetrigger then Function.update disk start.todelete none else disk
    share := backupGpo date start.gpos (mkdir date B.share) }

/-! ## Names of days -/

theorem two_inj {m n : Nat} (hm : m < 100) (hn : n < 100) (h : two m = two n) : m = n := by
  obtain ⟨htens, hones⟩ := List.cons.inj h
  have htens := (digit_eq_digit _ _).mp htens
  have hones := (digit_eq_digit _ _).mp (List.cons.inj hones).1
  omega

/-- Different days have different names. -/
theorem dateText_inj {separator : Char} {m n : Nat} (hm : m ≤ maxDate) (hn : n ≤ maxDate)
    (h : dateText separator m = dateText separator n) : m = n := by
  have hyear : ∀ k, k ≤ maxDate → (parts k).year < 10000 := by
    intro k hk
    rw [maxDate] at hk
    exact year_parts_lt (by omega)
  have hlength : ∀ j k, (two j).length = (two k).length := fun _ _ => rfl
  rw [dateText, dateText] at h
  obtain ⟨hday, hrest⟩ := List.append_inj h (hlength _ _)
  obtain ⟨hmonth, hrest⟩ := List.append_inj (List.cons.inj hrest).2 (hlength _ _)
  obtain ⟨hcentury, hyears⟩ := List.append_inj (List.cons.inj hrest).2 (hlength _ _)
  have hm' := parts_le m
  have hn' := parts_le n
  have hmy := hyear m hm
  have hny := hyear n hn
  have hday := two_inj (by omega) (by omega) hday
  have hmonth := two_inj (by omega) (by omega) hmonth
  have hcentury := two_inj (by omega) (by omega) hcentury
  have hyears := two_inj (Nat.mod_lt _ (by decide)) (Nat.mod_lt _ (by decide)) hyears
  apply parts_injective
  rw [Parts.mk.injEq]
  omega

/-- The name that is put together from the pieces of the date is that of the day. -/
theorem todelete_eq (start : Start) : start.todelete = dateText '.' (start.today - 33) := by
  have hdash : ∀ n, '-' ∉ two n := fun n => notMem_two n (by decide)
  have hyear : ∀ y, '-' ∉ two (y / 100) ++ two (y % 100) := fun y h =>
    (List.mem_append.mp h).elim (hdash _) (hdash _)
  rw [Start.todelete, dateText, List.splitOn_append_cons_self_of_not_mem (hdash _),
    List.splitOn_append_cons_self_of_not_mem (hdash _), List.splitOn_eq_singleton (hyear _)]
  rfl

/-! ## What the starts leave -/

section Starts

variable {B : Backups} {starts : List Start} {d : Nat}

/-- The backups of a day. -/
def madeOn (d : Nat) (starts : List Start) : List Text :=
  (starts.filter fun start => start.today = d).flatMap Start.gpos

/-- The directory of a day behind the starts, if none of them removes it. -/
def madeIn (directory : Option (List Text)) (d : Nat) (starts : List Start) : Option (List Text) :=
  if ∃ start ∈ starts, start.today = d then some (directory.getD [] ++ madeOn d starts)
  else directory

/-- A directory is made if it is not there, and the backups are put behind the others. -/
theorem backupGpo_mkdir (name : Text) (gpos : List Text) (directories : Text → Option (List Text)) :
    backupGpo name gpos (mkdir name directories) =
      Function.update directories name (some ((directories name).getD [] ++ gpos)) := by
  rw [backupGpo, mkdir, Function.update_self, Function.update_idem, Option.map_some]

/-- The directory of a day behind one start. -/
theorem madeIn_singleton (directories : Text → Option (List Text)) (start : Start)
    (hd : d ≤ maxDate) :
    backupGpo (dateText '.' start.today) start.gpos
        (mkdir (dateText '.' start.today) directories) (dateText '.' d) =
      madeIn (directories (dateText '.' d)) d [start] := by
  rw [backupGpo_mkdir, madeIn, madeOn]
  by_cases htoday : start.today = d
  · have hfilter : [start].filter (fun start => start.today = d) = [start] :=
      List.filter_eq_self.mpr fun s hs => decide_eq_true (List.mem_singleton.mp hs ▸ htoday)
    rw [htoday, Function.update_self, if_pos ⟨start, List.mem_singleton_self _, htoday⟩, hfilter,
      List.flatMap_singleton]
  · rw [Function.update_of_ne fun h => htoday (dateText_inj hd start.last h).symm, if_neg]
    rintro ⟨s, hs, hs'⟩
    exact htoday (List.mem_singleton.mp hs ▸ hs')

/-- Backups of some starts behind those of the starts before. -/
theorem madeIn_cons (directory : Option (List Text)) (start : Start) (starts : List Start) :
    madeIn (madeIn directory d [start]) d starts = madeIn directory d (start :: starts) := by
  have hmade : madeOn d (start :: starts) = madeOn d [start] ++ madeOn d starts := by
    rw [madeOn, madeOn, madeOn, ← List.flatMap_append, ← List.filter_append,
      List.singleton_append]
  have hnone : ∀ starts : List Start, (¬∃ start ∈ starts, start.today = d) →
      madeOn d starts = [] := by
    intro starts hnone
    rw [madeOn, List.filter_eq_nil_iff.mpr, List.flatMap_nil]
    exact fun start hstart htoday => hnone ⟨start, hstart, of_decide_eq_true htoday⟩
  have hexists : (∃ s ∈ start :: starts, s.today = d) ↔
      (∃ s ∈ [start], s.today = d) ∨ ∃ s ∈ starts, s.today = d := by
    simp only [List.mem_cons, List.not_mem_nil, or_false, exists_eq_or_imp, exists_eq_left]
  rw [madeIn, madeIn, madeIn, hmade]
  by_cases hhead : ∃ s ∈ [start], s.today = d
  · rw [if_pos (hexists.mpr (Or.inl hhead)), if_pos hhead]
    by_cases htail : ∃ s ∈ starts, s.today = d
    · rw [if_pos htail, Option.getD_some, List.append_assoc]
    · rw [if_neg htail, hnone starts htail, List.append_nil]
  · rw [if_neg hhead, hnone _ hhead, List.nil_append]
    by_cases htail : ∃ s ∈ starts, s.today = d
    · rw [if_pos htail, if_pos (hexists.mpr (Or.inr htail))]
    · rw [if_neg htail, if_neg (mt hexists.mp (not_or.mpr ⟨hhead, htail⟩))]

/-- One start: the directory of the day 33 days before goes. -/
theorem disk_gpoBackups (start : Start) (hd : d ≤ maxDate) :
    (gpoBackups B start).disk (dateText '.' d) =
      if start.today = d + 33 then none else madeIn (B.disk (dateText '.' d)) d [start] := by
  have hmade := madeIn_singleton B.disk start hd
  have hname : start.todelete = dateText '.' d ↔ start.today = d + 33 := by
    rw [todelete_eq]
    have hfirst := start.first
    have hlast := start.last
    constructor
    · intro h
      have hday := dateText_inj (by omega) hd h
      omega
    · intro h
      rw [h, Nat.add_sub_cancel]
  simp only [gpoBackups]
  split_ifs with htrigger htoday htoday
  · rw [hname.mpr htoday, Function.update_self]
  · rw [Function.update_of_ne fun h => htoday (hname.mp h.symm), hmade]
  · -- there was nothing to remove
    rw [hname.mpr htoday, Bool.not_eq_true, Option.isSome_eq_false_iff, Option.isNone_iff_eq_none]
      at htrigger
    have hnone : ¬∃ s ∈ [start], s.today = d := by
      rintro ⟨s, hs, hs'⟩
      rw [List.mem_singleton.mp hs] at hs'
      omega
    rw [hmade, madeIn, if_neg hnone, htrigger]
  · exact hmade

/-- Over any starts, the directory of a day has all the backups of that day, unless there is a
start 33 days later, and then it is gone; on the share it stays in any case. -/
theorem backups_of_day (hsorted : starts.Pairwise fun s s' => s.today ≤ s'.today)
    (hd : d ≤ maxDate) :
    (starts.foldl gpoBackups B).disk (dateText '.' d) =
        (if ∃ start ∈ starts, start.today = d + 33 then none
          else madeIn (B.disk (dateText '.' d)) d starts) ∧
      (starts.foldl gpoBackups B).share (dateText '.' d) =
        madeIn (B.share (dateText '.' d)) d starts := by
  induction starts generalizing B with
  | nil =>
    have hnone : ∀ n, ¬∃ start ∈ ([] : List Start), start.today = n := by
      rintro n ⟨start, hstart, -⟩
      exact List.not_mem_nil hstart
    rw [List.foldl_nil, if_neg (hnone _), madeIn, madeIn, if_neg (hnone d), if_neg (hnone d)]
    exact ⟨rfl, rfl⟩
  | cons start starts ih =>
    rw [List.pairwise_cons] at hsorted
    obtain ⟨hdisk, hshare⟩ := ih (B := gpoBackups B start) hsorted.2
    rw [List.foldl_cons, hdisk, hshare, ← madeIn_cons _ start starts, ← madeIn_cons _ start starts,
      disk_gpoBackups start hd]
    refine ⟨?_, congrArg (madeIn · d starts) (madeIn_singleton B.share start hd)⟩
    by_cases hlater : ∃ s ∈ starts, s.today = d + 33
    · obtain ⟨s, hs, htoday⟩ := hlater
      rw [if_pos ⟨s, hs, htoday⟩, if_pos ⟨s, List.mem_cons_of_mem _ hs, htoday⟩]
    · rw [if_neg hlater]
      by_cases hfirst : start.today = d + 33
      · -- the directory is gone and the day does not come again
        have hnone : ¬∃ s ∈ starts, s.today = d := by
          rintro ⟨s, hs, htoday⟩
          have hle := hsorted.1 s hs
          omega
        rw [if_pos hfirst, if_pos ⟨start, List.mem_cons_self, hfirst⟩, madeIn, if_neg hnone]
      · rw [if_neg hfirst, if_neg]
        rintro ⟨s, hs, htoday⟩
        rcases List.mem_cons.mp hs with rfl | hs
        · exact hfirst htoday
        · exact hlater ⟨s, hs, htoday⟩

/-- A backup stays for good because there is no start on the one day that would remove it. -/
theorem backups_of_day_skipped :
    ([⟨739200, ["Default Domain Policy".toList], by decide, by decide⟩,
      ⟨739234, ["Default Domain Policy".toList], by decide, by decide⟩].foldl gpoBackups
        ⟨fun _ => none, fun _ => none⟩).disk "11.11.2024".toList =
      some ["Default Domain Policy".toList] := by
  have hday : "11.11.2024".toList = dateText '.' 739200 := by decide
  rw [hday, (backups_of_day (by decide) (by decide)).1]
  decide

end Starts

end OpsScripts.ActiveDirectory
