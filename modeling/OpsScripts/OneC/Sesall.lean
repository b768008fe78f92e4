import OpsScripts.Core.RegexSyntax
import OpsScripts.OneC.Rac

/-!
# The session reader of the Windows script

`sesall` goes through the lines of two listings. A line of a session is sent to the
first branch whose keyword occurs in it, anywhere and without case, and the branch
adds one property to the object begun last; the object joins the result at the
memory line and is filled up afterwards, since the result holds a reference to it.
-/

namespace OpsScripts.OneC.Windows

/-! ## Objects -/

/-- Values of properties. -/
inductive Value where
  | string (t : Text)
  | number (n : Int)
  deriving DecidableEq

/-- An object: its properties in the order in which they were added. -/
abbrev PSObject := List (String × Value)

/-- `Add-Member`; a property that is there already is an error. -/
def addMember (name : String) (v : Value) (o : PSObject) : PSObject :=
  if o.any fun m => m.1 = name then o else o ++ [(name, v)]

/-- The conversions of the host; a text that has none raises an error. -/
structure Casts where
  long : Text → Option Int
  datetime : Text → Option Text

/-! ## Lines -/

/-- What stands behind the first colon with a space. -/
def afterColon : Text → Option Text
  | [] => none
  | x :: t => if x = ':' ∧ t.head? = some ' ' then some t.tail else afterColon t

/-- `$line -replace "^.*?: "`. -/
def stripKey (line : Text) : Text := (afterColon line).getD line

/-- The branches of the reader. -/
inductive Branch where
  | session | infobase | userName | appId | startedAt | lastActiveAt | hibernate | callsLast
  | durationCurrent | durationCurrentDbms | readLast | writeLast | cpuTimeLast | memoryLast
  deriving DecidableEq

/-- The keywords in the order in which they are tried. -/
def keywords : List (Branch × String) :=
  [(.session, "session "), (.infobase, "infobase"), (.userName, "user.name"), (.appId, "app-id"),
    (.startedAt, "started.at"), (.lastActiveAt, "last.active.at"), (.hibernate, "hibernate "),
    (.callsLast, "calls.last"), (.durationCurrent, "duration.current "),
    (.durationCurrentDbms, "duration.current-dbms"), (.readLast, "read.last"),
    (.writeLast, "write.last"), (.cpuTimeLast, "cpu.time.last"), (.memoryLast, "memory.last")]

section Reader

variable [Culture]

/-- `$line -match keyword` for a keyword of letters and dots. -/
def hasKeyword (line : Text) (keyword : String) : Bool :=
  (Regex.literal (Regex.dotEq (letterEq true)) keyword.toList).isMatch line

/-- The branch of a line. -/
def branchOf (line : Text) : Option Branch :=
  (keywords.find? fun k => hasKeyword line k.2).map Prod.fst

/-! ## Infobases -/

/-- The infobase under construction, and those that have been collected. -/
structure Infobases where
  infoBase : Option (Text × Option Text)
  infoBaseBase : List (Text × Text)

/-- One line of the summary. Without an object under construction nothing but a null
is collected, which no search finds. -/
def readInfobase (st : Infobases) (line : Text) : Infobases :=
  let infoBase := if hasKeyword line "infobase" then some (stripKey line, none) else st.infoBase
  if hasKeyword line "name" then
    match infoBase with
    | none => ⟨none, st.infoBaseBase⟩
    | some (infobase, name) =>
      let name := name.getD (stripKey line)
      ⟨some (infobase, some name), st.infoBaseBase ++ [(infobase, name)]⟩
  else ⟨infoBase, st.infoBaseBase⟩

/-- The infobases of a summary. -/
def infobases (racInfobases : List Text) : List (Text × Text) :=
  (racInfobases.foldl readInfobase ⟨none, []⟩).infoBaseBase

/-- `[string]` of a list: its texts with spaces between. -/
def joinNames : List Text → Text
  | [] => []
  | [name] => name
  | name :: names => name ++ ' ' :: joinNames names

variable (E : Engine)

/-- The names of the infobases whose identifier matches; an identifier that is no valid
pattern matches none. -/
def infoBaseName (infoBaseBase : List (Text × Text)) (infoBaseUid : Text) : Text :=
  let test := (E.compile true infoBaseUid).getD fun _ => false
  joinNames ((infoBaseBase.filter fun b => test b.1).map Prod.snd)

/-! ## Sessions -/

/-- The state of the reader: all objects made so far, the reference in `$Session`, the
references in the result, and `$Sleep`. -/
structure Reader where
  objects : List PSObject
  session : Option Nat
  sessionBase : List (Option Nat)
  sleep : Int

/-- A property for the object in `$Session`. -/
def Reader.set (st : Reader) (name : String) (v : Value) : Reader :=
  match st.session with
  | none => st
  | some r => { st with objects := st.objects.modify r (addMember name v) }

/-- A property whose value is converted; an error adds nothing. -/
def Reader.setCast (st : Reader) (name : String) : Option Value → Reader
  | none => st
  | some v => st.set name v

/-- `$Sleep` behind a line: a line with neither word leaves it as it was. -/
def sleepAfter (sleep : Int) (line : Text) : Int :=
  if hasKeyword line "yes" then 1 else if hasKeyword line "no" then 0 else sleep

variable (casts : Casts) (infoBaseBase : List (Text × Text))

/-- What a branch does with its line. -/
def Reader.branch (st : Reader) (line : Text) : Branch → Reader
  | .session =>
    let st := { st with objects := st.objects ++ [[]], session := some st.objects.length }
    st.set "uid" (.string (stripKey line))
  | .infobase => st.set "base" (.string (infoBaseName E infoBaseBase (stripKey line)))
  | .userName => st.set "user" (.string (stripKey line))
  | .appId => st.set "type" (.string (stripKey line))
  | .startedAt => st.setCast "Started" ((casts.datetime (stripKey line)).map .string)
  | .lastActiveAt => st.setCast "Last" ((casts.datetime (stripKey line)).map .string)
  | .hibernate =>
    let st := { st with sleep := sleepAfter st.sleep line }
    st.set "sleep" (.number st.sleep)
  | .callsLast => st.setCast "calls_5min" ((casts.long (stripKey line)).map .number)
  | .durationCurrent => st.setCast "dur_current" ((casts.long (stripKey line)).map .number)
  | .durationCurrentDbms => st.setCast "dur_db_cur" ((casts.long (stripKey line)).map .number)
  | .readLast => st.setCast "read_5min" ((casts.long (stripKey line)).map .number)
  | .writeLast => st.setCast "write_5min" ((casts.long (stripKey line)).map .number)
  | .cpuTimeLast => st.setCast "cpu_5min" ((casts.long (stripKey line)).map .number)
  | .memoryLast =>
    let st := st.setCast "m_5min" ((casts.long (stripKey line)).map .number)
    { st with sessionBase := st.sessionBase ++ [st.session] }

/-- One line of the session list. -/
def Reader.read (st : Reader) (line : Text) : Reader :=
  match branchOf line with
  | none => st
  | some b => st.branch E casts infoBaseBase line b

/-- The objects that the references of a state stand for. -/
def Reader.result (st : Reader) : List (Option PSObject) :=
  st.sessionBase.map fun r => r.bind fun r => st.objects[r]?

end Reader

/-- `sesall`: the objects of the two listings. -/
def sesall [Culture] (E : Engine) (casts : Casts) (racInfobases racSessions : List Text) :
    List (Option PSObject) :=
  (racSessions.foldl (Reader.read E casts (infobases racInfobases)) ⟨[], none, [], 0⟩).result

/-! ## Lines of keys and values -/

theorem afterColon_append {key : Text} (h : ':' ∉ key) (t : Text) :
    afterColon (key ++ ':' :: ' ' :: t) = some t := by
  induction key with
  | nil => rfl
  | cons x key ih =>
    rw [List.mem_cons, not_or] at h
    rw [List.cons_append, afterColon, if_neg fun hx => h.1 hx.1.symm, ih h.2]

/-- The value is what is left of a line. -/
theorem stripKey_keyLine {key : Text} (h : ':' ∉ key) (value : Text) :
    stripKey (keyLine key value) = value := by
  rw [stripKey, keyLine, printed, afterColon_append h, Option.getD_some]

/-- The keywords are read as literals with open places. -/
theorem parse_keywords [Culture] : ∀ keyword ∈ "name" :: "yes" :: "no" :: keywords.map Prod.snd,
    Regex.parse (letterEq true) keyword.toList =
      .pattern (Regex.literal (Regex.dotEq (letterEq true)) keyword.toList) := by
  intro keyword hkeyword
  apply Regex.parse_withDots
  have hall : ∀ keyword ∈ "name" :: "yes" :: "no" :: keywords.map Prod.snd,
      Regex.WithDots keyword.toList := by decide +kernel
  exact hall keyword hkeyword

end OpsScripts.OneC.Windows
