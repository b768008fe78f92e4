import OpsScripts.Core.DateTime
import OpsScripts.Core.KeyValue

/-!
# What the cluster console prints

`rac` prints a record as lines `key : value`, padded keys first. A session has 49
such lines and a blank line behind them, an infobase has three. Identifiers are
hexadecimal digits and dashes, the two times of a session have a fixed form, and
every other value is any text without a line break.
-/

namespace OpsScripts.OneC

/-! ## Records -/

namespace Field

/-- The place of the line `session`. -/
abbrev session : Fin 49 := 0

/-- The place of the line `infobase` of a session. -/
abbrev infobase : Fin 49 := 2

/-- The place of the line `user-name`. -/
abbrev userName : Fin 49 := 5

/-- The place of the line `app-id`. -/
abbrev appId : Fin 49 := 7

/-- The place of the line `started-at`. -/
abbrev startedAt : Fin 49 := 9

/-- The place of the line `last-active-at`. -/
abbrev lastActiveAt : Fin 49 := 10

/-- The place of the line `hibernate`. -/
abbrev hibernate : Fin 49 := 11

/-- The place of the line `calls-last-5min`. -/
abbrev callsLast : Fin 49 := 19

/-- The place of the line `duration-current`. -/
abbrev durationCurrent : Fin 49 := 27

/-- The place of the line `duration current-dbms`. -/
abbrev durationCurrentDbms : Fin 49 := 28

/-- The place of the line `memory-last-5min`. -/
abbrev memoryLast : Fin 49 := 32

/-- The place of the line `read-last-5min`. -/
abbrev readLast : Fin 49 := 35

/-- The place of the line `write-last-5min`. -/
abbrev writeLast : Fin 49 := 38

/-- The place of the line `cpu-time-last-5min`. -/
abbrev cpuTimeLast : Fin 49 := 45

/-- The place of the line `client-ip`. -/
abbrev clientIp : Fin 49 := 48

end Field

/-- An identifier. -/
structure Uuid where
  text : Text
  hex : ∀ c ∈ text, c ∈ "0123456789abcdefABCDEF-".toList

/-- An infobase of the summary list. -/
structure Infobase where
  id : Uuid
  name : Text
  descr : Text
  name_line : OneLine name
  descr_line : OneLine descr

/-- The infobases of a cluster; an identifier belongs to one of them. -/
structure Infobases where
  list : List Infobase
  distinct : (list.map fun b => b.id.text).Nodup

/-- A session: the values of its 49 lines. -/
structure Session where
  value : Fin 49 → Text
  line : ∀ j, OneLine (value j)
  startedAt : ∃ m : Moment, value Field.startedAt = m.iso
  lastActiveAt : ∃ m : Moment, value Field.lastActiveAt = m.iso

/-- The layout of the listings: the padded keys of a session, and the number of
blank lines behind an infobase. -/
structure Layout where
  key : Fin 49 → Text
  key_line : ∀ j, OneLine (key j)
  key_colon : ∀ j, ':' ∉ key j
  gap : Nat

/-! ## Printing -/

/-- The value as it stands behind the colon. -/
def printed (value : Text) : Text := ' ' :: value

/-- A line `key : value`; the key carries its padding. -/
def keyLine (key value : Text) : Text := key ++ ':' :: printed value

/-- The lines of an infobase. -/
def Infobase.print (gap : Nat) (b : Infobase) : List Text :=
  [keyLine "infobase ".toList b.id.text, keyLine "name     ".toList b.name,
    keyLine "descr    ".toList b.descr] ++ List.replicate gap []

/-- The lines of a session. -/
def Session.print (L : Layout) (s : Session) : List Text :=
  List.ofFn (fun j => keyLine (L.key j) (s.value j)) ++ [[]]

/-- `rac infobase summary list`. -/
def printInfobases (L : Layout) (bs : Infobases) : Text :=
  unlines (bs.list.flatMap (Infobase.print L.gap))

/-- `rac session list`. -/
def printSessions (L : Layout) (ss : List Session) : Text :=
  unlines (ss.flatMap (Session.print L))

/-! ## Lines under the expression -/

/-- What the expression takes from a line: the key and the value it sees. -/
def cut (line : Text) : Text × Text := (cutLast ':' line).getD ([], [])

/-- The part of a value that stays: what follows its last colon. -/
def kept (value : Text) : Text := lastPiece ':' (printed value)

theorem kept_of_notMem {value : Text} (h : ':' ∉ value) : kept value = printed value := by
  apply lastPiece_of_notMem
  intro hmem
  exact h ((List.mem_cons.mp hmem).resolve_left (by decide))

theorem notMem_kept (value : Text) : ':' ∉ kept value := notMem_lastPiece ':' _

theorem printed_injective : Function.Injective printed := fun _ _ h => (List.cons.inj h).2

@[simp] theorem printed_inj {v w : Text} : printed v = printed w ↔ v = w :=
  printed_injective.eq_iff

/-- Every line is cut. -/
theorem cutLast_keyLine (key value : Text) :
    cutLast ':' (keyLine key value) = some (cut (keyLine key value)) := by
  obtain ⟨s, hs, -⟩ := cutLast_of_mem (List.mem_append_right key List.mem_cons_self)
  rw [cut, keyLine, printed, hs, Option.getD_some]

/-- The second part of the cut is the kept part of the value. -/
@[simp] theorem cut_keyLine_snd (key value : Text) : (cut (keyLine key value)).2 = kept value := by
  obtain ⟨s, hs, -⟩ := cutLast_of_mem (List.mem_append_right key List.mem_cons_self)
  rw [cut, keyLine, printed, hs, Option.getD_some, lastPiece_append_cons, kept, printed]

/-- The first part of the cut begins with the key. -/
theorem prefix_cut_keyLine (key value : Text) : key <+: (cut (keyLine key value)).1 := by
  by_cases hcolon : ':' ∈ printed value
  · obtain ⟨s, t, hst, ht⟩ := exists_last_split hcolon
    have hline : keyLine key value = (key ++ ':' :: s) ++ ':' :: t := by
      rw [keyLine, hst, List.append_assoc, List.cons_append]
    rw [cut, hline, cutLast_append_cons _ ht]
    exact List.prefix_append _ _
  · rw [cut, keyLine, cutLast_append_cons _ hcolon]
    exact List.prefix_refl _

theorem newline_notMem_keyLine {key value : Text} (hkey : '\n' ∉ key) (hvalue : '\n' ∉ value) :
    '\n' ∉ keyLine key value := by
  simp only [keyLine, printed, List.mem_append, List.mem_cons, not_or]
  exact ⟨hkey, by decide, by decide, hvalue⟩

/-! ## Identifiers and times -/

theorem Uuid.notMem (u : Uuid) {c : Char} (hc : c ∉ "0123456789abcdefABCDEF-".toList) :
    c ∉ u.text :=
  fun h => hc (u.hex c h)

/-- A line with a time is cut in front of its seconds. -/
theorem cut_keyLine_iso (key : Text) (m : Moment) : cut (keyLine key m.iso) =
    (key ++ ':' :: (printed m.dateHour ++ ':' :: DateTime.two m.minute),
      DateTime.two m.second) := by
  have hline : keyLine key m.iso = (key ++ ':' :: (printed m.dateHour ++ ':' ::
      DateTime.two m.minute)) ++ ':' :: DateTime.two m.second := by
    simp only [keyLine, printed, Moment.iso, List.append_assoc, List.cons_append]
  rw [cut, hline, cutLast_append_cons _ (DateTime.notMem_two _ (by decide))]
  rfl

end OpsScripts.OneC
