import OpsScripts.OneC.Discovery
import OpsScripts.OneC.Sesall

/-!
# What the Windows script makes of its sessions

The discovery mode prints a line for each application with three counts, and the mode
`ToGraylog` builds a packet from each object. A list of one object is that object
itself, which has no `Count`, and one field of the packet is read under a name that no
object has, so both modes fall short as soon as there is a session.
-/

namespace OpsScripts.OneC.Windows

/-! ## Discovery -/

/-- `.count` of a pipeline's result as text: a single object has none, a single null
counts as nothing. -/
def countText : List (Option PSObject) → Text
  | [some _] => []
  | [none] => Nat.toDigits 10 0
  | os => Nat.toDigits 10 os.length

/-- A property of an object, null when there is no object or no such property. -/
def property (name : String) (o : Option PSObject) : Option Value := o.bind fun o => o.lookup name

/-- A line of the discovery. -/
def discoveryLine (app : String) (slot : Nat) (sessions sleep total : Text) : Text :=
  "\x7b \"APP\" : \"".toList ++ app.toList ++ "\", \"Slot\" : \"".toList ++ Nat.toDigits 10 slot ++
    "\", \"Sessions\" : \"".toList ++ sessions ++ "\", \"TotalSleep\" : \"".toList ++ sleep ++
    "\", \"Totalsessions\" : \"".toList ++ total ++ "\" \x7d".toList ++
    (if slot + 1 < appID.length then ",".toList else [])

/-- `$_.type -eq $app`. -/
def isType [Culture] (app : String) (o : Option PSObject) : Bool :=
  match property "type" o with
  | some (.string t) => eqIgnoreCase t app.toList
  | _ => false

/-- `$_.sleep -eq "1"`. -/
def sleeps (o : Option PSObject) : Bool := property "sleep" o = some (.number 1)

/-- The lines of the mode `discovery`. -/
def discovery [Culture] (sessions : List (Option PSObject)) : List Text :=
  "[\n".toList :: (appID.zipIdx.map fun p => discoveryLine p.1 p.2
    (countText (sessions.filter (isType p.1))) (countText (sessions.filter sleeps))
      (countText sessions)) ++ [[], " ]".toList]

/-! ## Packets -/

/-- The additional fields of a packet, each with the property that it is read from. -/
def packetFields : List (String × String) :=
  [("_Uid", "uid"), ("_Base", "base"), ("_User", "user"), ("_Type", "type"),
    ("_Started", "Started"), ("_Last", "Last"), ("_Sleep", "sleep"), ("_Calls_5min", "calls_5min"),
    ("_Dur_curren", "dur_curren"), ("_Dur_db_cur", "dur_db_cur"), ("_M_5min", "m_5min"),
    ("_Read_5min", "read_5min"), ("_Write_5min", "write_5min"), ("_Cpu_5min", "cpu_5min")]

/-- A packet; the short message is the object as JSON. -/
structure Packet where
  version : String
  host : String
  shortMessage : Option PSObject
  timestamp : Nat
  extra : List (String × Option Value)

/-- The packet of an object. -/
def packet (timenow : Nat) (row : Option PSObject) : Packet where
  version := "1.1"
  host := "1C-EDOC-APP01-CLUSTERDATA"
  shortMessage := row
  timestamp := timenow
  extra := packetFields.map fun f => (f.1, property f.2 row)

/-- The mode `ToGraylog`: the packets that are sent. -/
def toGraylog (timenow : Nat) (data : List (Option PSObject)) : List Packet :=
  data.map (packet timenow)

/-! ## What is expected -/

/-- The name of the infobase with an identifier. -/
def baseName (bs : List OneC.Infobase) (uid : Text) : Text :=
  ((bs.find? fun b => b.id.text = uid).map fun b => b.name).getD []

/-- The properties of a session, each from its own line. -/
def expected (casts : Casts) (bs : List OneC.Infobase) (s : Session) :
    List (String × Option Value) :=
  [("uid", some (.string (s.value Field.session))),
    ("base", some (.string (baseName bs (s.value Field.infobase)))),
    ("user", some (.string (s.value Field.userName))),
    ("type", some (.string (s.value Field.appId))),
    ("Started", (casts.datetime (s.value Field.startedAt)).map .string),
    ("Last", (casts.datetime (s.value Field.lastActiveAt)).map .string),
    ("sleep", some (.number (if s.value Field.hibernate = "yes".toList then 1 else 0))),
    ("calls_5min", (casts.long (s.value Field.callsLast)).map .number),
    ("dur_current", (casts.long (s.value Field.durationCurrent)).map .number),
    ("dur_db_cur", (casts.long (s.value Field.durationCurrentDbms)).map .number),
    ("m_5min", (casts.long (s.value Field.memoryLast)).map .number),
    ("read_5min", (casts.long (s.value Field.readLast)).map .number),
    ("write_5min", (casts.long (s.value Field.writeLast)).map .number),
    ("cpu_5min", (casts.long (s.value Field.cpuTimeLast)).map .number)]

/-- An object with all properties of a session. -/
def Describes (casts : Casts) (bs : List OneC.Infobase) (s : Session) (o : Option PSObject) :
    Prop :=
  ∀ p ∈ expected casts bs s, p.2.isSome ∧ property p.1 o = p.2

/-- Every count is printed as a number. -/
def CountsPrinted [Culture] (sessions : List (Option PSObject)) : Prop :=
  discovery sessions = "[\n".toList :: (appID.zipIdx.map fun p => discoveryLine p.1 p.2
    (Nat.toDigits 10 (sessions.countP fun o => property "type" o = some (.string p.1.toList)))
    (Nat.toDigits 10 (sessions.countP sleeps)) (Nat.toDigits 10 sessions.length)) ++
      [[], " ]".toList]

/-- A packet with a field for every property of an object. -/
def CarriesAll [Culture] (o : Option PSObject) (p : Packet) : Prop :=
  ∀ name v, property name o = some v →
    ∃ f ∈ p.extra, eqIgnoreCase f.1.toList ('_' :: name.toList) = true ∧ f.2 = some v

section Export

variable [Culture] (E : Engine) (casts : Casts)

/-- The objects of printed listings. -/
def sessionsOf (L : Layout) (bs : OneC.Infobases) (ss : List Session) : List (Option PSObject) :=
  sesall E casts (bs.list.flatMap (OneC.Infobase.print L.gap)) (ss.flatMap (Session.print L))

/-- The three parts of the export: an object for each session in order, all counts as
numbers, a full packet for each session. -/
structure Exported (timenow : Nat) (L : Layout) (bs : OneC.Infobases) (ss : List Session) :
    Prop where
  objects : List.Forall₂ (Describes casts bs.list) ss (sessionsOf E casts L bs ss)
  counts : CountsPrinted (sessionsOf E casts L bs ss)
  packets : List.Forall₂ CarriesAll (sessionsOf E casts L bs ss)
    (toGraylog timenow (sessionsOf E casts L bs ss))

end Export

/-! ## Counts -/

/-- A count that is not one is printed as a number. -/
theorem countText_of_ne_one {os : List (Option PSObject)} (h : os.length ≠ 1) :
    countText os = Nat.toDigits 10 os.length := by
  match os with
  | [] => rfl
  | [_] => exact absurd rfl h
  | o :: _ :: _ => cases o <;> rfl

/-! ## The empty listing -/

section Empty

variable [Culture] (E : Engine) (casts : Casts) (timenow : Nat) (L : Layout) (bs : OneC.Infobases)

theorem exported_nil : Exported E casts timenow L bs [] where
  objects := List.Forall₂.nil
  counts := rfl
  packets := List.Forall₂.nil

end Empty

/-! ## The missing field -/

/-- No field of a packet is called `dur_current`. -/
theorem packetFields_durCurrent [Culture] :
    ∀ f ∈ packetFields, eqIgnoreCase f.1.toList ('_' :: "dur_current".toList) = false := by
  have hascii : ∀ f ∈ packetFields, isAscii f.1.toList = true ∧
      (f.1.toList.map Char.toLower == ('_' :: "dur_current".toList).map Char.toLower) = false := by
    decide +kernel
  intro f hf
  rw [eqIgnoreCase_ascii (hascii f hf).1 (by decide +kernel)]
  exact (hascii f hf).2

/-- A packet does not carry the duration of its session. -/
theorem not_carriesAll [Culture] {o : Option PSObject} {v : Value} (timenow : Nat)
    (h : property "dur_current" o = some v) : ¬CarriesAll o (packet timenow o) := by
  intro hcarries
  obtain ⟨f, hf, hname, -⟩ := hcarries "dur_current" v h
  obtain ⟨g, hg, rfl⟩ := List.mem_map.mp hf
  rw [packetFields_durCurrent g hg] at hname
  cases hname

theorem forall₂_map_right_self {α β : Type} {R : α → β → Prop} {f : α → β} {xs : List α}
    (h : List.Forall₂ R xs (xs.map f)) : ∀ x ∈ xs, R x (f x) := by
  rwa [List.forall₂_map_right_iff, List.forall₂_same] at h

/-- An export that is right is the export of nothing. -/
theorem Exported.eq_nil [Culture] {E : Engine} {casts : Casts} {timenow : Nat} {L : Layout}
    {bs : OneC.Infobases} {ss : List Session} (h : Exported E casts timenow L bs ss) : ss = [] := by
  cases ss with
  | nil => rfl
  | cons s ss =>
    have hobjects := h.objects
    have hpackets := h.packets
    cases hsessions : sessionsOf E casts L bs (s :: ss) with
    | nil =>
      rw [hsessions] at hobjects
      cases hobjects
    | cons o os =>
      rw [hsessions] at hobjects hpackets
      obtain ⟨hdescribes, -⟩ := List.forall₂_cons.mp hobjects
      obtain ⟨hsome, heq⟩ := hdescribes
        ("dur_current", (casts.long (s.value Field.durationCurrent)).map .number)
        (by simp [expected])
      obtain ⟨v, hv⟩ := Option.isSome_iff_exists.mp hsome
      exact absurd (forall₂_map_right_self hpackets o List.mem_cons_self)
        (not_carriesAll timenow (heq.trans hv))

/-- The export is right for listings without a session only. -/
theorem exported_iff [Culture] (E : Engine) (casts : Casts) (timenow : Nat) (L : Layout)
    (bs : OneC.Infobases) (ss : List Session) : Exported E casts timenow L bs ss ↔ ss = [] := by
  constructor
  · exact Exported.eq_nil
  · rintro rfl
    exact exported_nil E casts timenow L bs

/-! ## One session -/

section Example

local instance : Culture := Culture.ascii

/-- Conversions that are right for zeros and for times. -/
def zeroCasts : Casts where
  long _ := some 0
  datetime t := some (blankT t)

/-- The packet of a session lacks its duration. -/
theorem bayesSession_not_exported : ¬Exported Engine.core zeroCasts 0 racLayout
    ⟨[], List.nodup_nil⟩ [bayesSession] := by
  intro h
  exact absurd h.eq_nil (List.cons_ne_nil _ _)

end Example

end OpsScripts.OneC.Windows
