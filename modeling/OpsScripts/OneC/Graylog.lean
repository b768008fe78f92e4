import Mathlib.Tactic.Ring
import OpsScripts.OneC.Faithful
import OpsScripts.OneC.Report

/-!
# Sessions on their way to Graylog

The mode `ToGraylog` reads the text of the session export back and logs each session
as one message of the root logger. Every pass of its loop adds one more filter and one
more handler to that logger, and nothing is ever removed, so the session of pass `i`
leaves through `i + 1` handlers. Without sessions there is no JSON to read.
-/

namespace OpsScripts.OneC

/-! ## The logger -/

/-- The attributes that the filter sets, each with the key of the session it reads. -/
def extraFields : List (String × String) :=
  [("username", "user-name"), ("app_id", "app-id"), ("blocked_by_dbms", "blocked-by-dbms"),
    ("blocked_by_ls", "blocked-by-ls"), ("bytes_all", "bytes-all"),
    ("bytes_last_5min", "bytes-last-5min"), ("calls_all", "calls-all"),
    ("calls_last_5min", "calls-last-5min"), ("client_ip", "client-ip"),
    ("cpu_time_current", "cpu-time-current"), ("cpu_time_last_5min", "cpu-time-last-5min"),
    ("cpu_time_total", "cpu-time-total"), ("current_service_name", "current-service-name"),
    ("data_separation", "data-separation"), ("db_proc_info", "db-proc-info"),
    ("db_proc_took", "db-proc-took"), ("db_proc_took_at", "db-proc-took-at"),
    ("dbms_bytes_all", "dbms-bytes-all"), ("dbms_bytes_last_5min", "dbms-bytes-last-5min"),
    ("duration_current_dbms", "duration current-dbms"), ("duration_all", "duration-all"),
    ("duration_all_dbms", "duration-all-dbms"), ("duration_all_service", "duration-all-service"),
    ("duration_current", "duration-current"),
    ("duration_current_service", "duration-current-service"),
    ("duration_last_5min", "duration-last-5min"),
    ("duration_last_5min_dbms", "duration-last-5min-dbms"),
    ("duration_last_5min_service", "duration-last-5min-service"), ("hibernate", "hibernate"),
    ("hibernate_session_terminate_time", "hibernate-session-terminate-time"), ("host", "host"),
    ("infobase", "infobase"), ("last_active_at", "last-active-at"), ("locale", "locale"),
    ("memory_current", "memory-current"), ("memory_last_5min", "memory-last-5min"),
    ("memory_total", "memory-total"),
    ("passive_session_hibernate_time", "passive-session-hibernate-time"),
    ("read_current", "read-current"), ("read_last_5min", "read-last-5min"),
    ("read_total", "read-total"), ("session", "session"), ("session_id", "session-id"),
    ("started_at", "started-at"), ("write_current", "write-current"),
    ("write_last_5min", "write-last-5min"), ("write_total", "write-total")]

/-- A log record: the message and the attributes that filters have set. -/
structure Record where
  msg : Json
  extra : List (Text × Json)

/-- The filters that the script adds. -/
inductive Filter where
  | contextFilter
  deriving DecidableEq

/-- The handler of `basicConfig` and the GELF handlers. -/
inductive Handler where
  | streamHandler
  | gelfUdpHandler
  deriving DecidableEq

/-- The root logger. -/
structure Logger where
  filters : List Filter
  handlers : List Handler

/-- A record that a handler emits. -/
abbrev Emission := Handler × Record

/-- `record.attribute = ss[i][key]`. -/
def setExtra (ss : List Json) (i : Nat) (record : Record) (field : String × String) :
    Option Record := do
  let s ← ss[i]?
  let value ← s.get field.2.toList
  some { record with extra := Json.assign field.1.toList value record.extra }

/-- A filter sets the attributes of the session that the loop has reached. -/
def Filter.filter (ss : List Json) (i : Nat) (record : Record) : Filter → Option Record
  | contextFilter => extraFields.foldlM (setExtra ss i) record

namespace Logger

/-- `logging.basicConfig`: a stream handler for a logger without handlers. -/
def basicConfig (logger : Logger) : Logger :=
  if logger.handlers.isEmpty then { logger with handlers := [.streamHandler] } else logger

/-- `addFilter`. -/
def addFilter (logger : Logger) (f : Filter) : Logger :=
  { logger with filters := logger.filters ++ [f] }

/-- `addHandler`. -/
def addHandler (logger : Logger) (handler : Handler) : Logger :=
  { logger with handlers := logger.handlers ++ [handler] }

/-- `debug`: all filters are applied, then every handler emits. -/
def debug (logger : Logger) (ss : List Json) (i : Nat) (msg : Json) : Option (List Emission) := do
  let record ← logger.filters.foldlM (fun record f => f.filter ss i record) ⟨msg, []⟩
  some (logger.handlers.map fun handler => (handler, record))

end Logger

/-! ## The loop -/

/-- One pass of the loop. -/
def logSession (ss : List Json) (i : Nat) (logger : Logger) : Option (Logger × List Emission) := do
  let logger := logger.basicConfig
  let logger := logger.addFilter .contextFilter
  let logger := logger.addHandler .gelfUdpHandler
  let sent ← logger.debug ss i (← ss[i]?)
  some (logger, sent)

/-- The passes for a list of indices. -/
def logSessions (ss : List Json) : List Nat → Logger → Option (List Emission)
  | [], _ => some []
  | i :: is, logger => do
    let (logger, sent) ← logSession ss i logger
    let rest ← logSessions ss is logger
    some (sent ++ rest)

/-- An object as JSON. -/
def Object.json (o : Object) : Json := .obj (o.map fun m => (m.1, .str m.2))

/-- The text that the session export returns. -/
def sessionsData (racInfobases rsessions : Text) : Option Text :=
  (sessionsDetail racInfobases rsessions).map fun objects => report (objects.map Object.json)

/-- The list that is read from a text, session after session. -/
def logText (text : Text) : Option (List Emission) := do
  match ← Json.loads text with
  | .arr ss => logSessions ss (List.range ss.length) ⟨[], []⟩
  | _ => none

/-- The mode `ToGraylog`: what all handlers emit; an exception is `none`. -/
def toGraylog (racInfobases rsessions : Text) : Option (List Emission) := do
  logText (← sessionsData racInfobases rsessions)

/-- The records that the GELF handlers emit. -/
def gelfRecords (sent : List Emission) : List Record :=
  (sent.filter fun e => e.1 = .gelfUdpHandler).map Prod.snd

/-! ## The logger after some passes -/

/-- The logger that `i` passes of the loop leave behind. -/
def loggerAfter : Nat → Logger
  | 0 => ⟨[], []⟩
  | i + 1 => ⟨List.replicate (i + 1) .contextFilter,
      .streamHandler :: List.replicate (i + 1) .gelfUdpHandler⟩

/-- Each pass adds one filter and one handler. -/
theorem loggerAfter_succ (i : Nat) :
    (((loggerAfter i).basicConfig).addFilter .contextFilter).addHandler .gelfUdpHandler =
      loggerAfter (i + 1) := by
  cases i with
  | zero => rfl
  | succ i =>
    simp only [loggerAfter, Logger.basicConfig, Logger.addFilter, Logger.addHandler,
      List.isEmpty_cons, Bool.false_eq_true, if_false, List.cons_append,
      ← List.replicate_succ' (n := i + 1)]

/-! ## The record of a session -/

/-- The attributes that are read from a session. -/
def extraOf (s : Json) : List (Text × Json) :=
  extraFields.map fun f => (f.1.toList, (s.get f.2.toList).getD (.num 0))

/-- The record of a session. -/
def recordOf (s : Json) : Record := ⟨s, extraOf s⟩

/-- A session with all the keys that the filter reads. -/
def HasKeys (s : Json) : Prop := ∀ f ∈ extraFields, (s.get f.2.toList).isSome

theorem extraFields_nodup : (extraFields.map fun f => f.1.toList).Nodup := by
  have hnames : (extraFields.map Prod.fst).Nodup := by decide +kernel
  have htexts := hnames.map fun a b h => String.toList_injective h
  rwa [List.map_map] at htexts

theorem map_fst_extraOf (s : Json) :
    (extraOf s).map Prod.fst = extraFields.map fun f => f.1.toList := by
  rw [extraOf, List.map_map]
  rfl

/-- Setting an attribute to the value it has changes nothing. -/
theorem assign_of_mem {k : Text} {v : Json} {ms : List (Text × Json)}
    (h : (ms.map Prod.fst).Nodup) (hm : (k, v) ∈ ms) : Json.assign k v ms = ms := by
  induction ms with
  | nil => cases hm
  | cons m ms ih =>
    rw [List.map_cons, List.nodup_cons] at h
    rcases List.mem_cons.mp hm with rfl | hm
    · rw [Json.assign, if_pos rfl]
    · have hne : m.1 ≠ k := by
        intro hk
        have hmem : k ∈ ms.map Prod.fst := List.mem_map_of_mem (f := Prod.fst) hm
        exact h.1 (hk ▸ hmem)
      rw [Json.assign, if_neg hne, ih h.2 hm]

variable {ss : List Json} {i : Nat} {s : Json}

theorem setExtra_eq (hi : ss[i]? = some s) {f : String × String}
    (hf : (s.get f.2.toList).isSome) (record : Record) : setExtra ss i record f = some { record with
      extra := Json.assign f.1.toList ((s.get f.2.toList).getD (.num 0)) record.extra } := by
  obtain ⟨v, hv⟩ := Option.isSome_iff_exists.mp hf
  simp only [setExtra, hi, Option.bind_eq_bind, Option.bind_some, hv, Option.getD_some]

/-- The attributes are set one after the other. -/
theorem foldlM_setExtra (hi : ss[i]? = some s) {fields : List (String × String)}
    (hfields : ∀ f ∈ fields, (s.get f.2.toList).isSome) (record : Record) :
    fields.foldlM (setExtra ss i) record = some { record with
      extra := (fields.map fun f => (f.1.toList, (s.get f.2.toList).getD (.num 0))).foldl
        (fun ms m => Json.assign m.1 m.2 ms) record.extra } := by
  induction fields generalizing record with
  | nil => rfl
  | cons f fields ih =>
    rw [List.foldlM_cons, setExtra_eq hi (hfields f List.mem_cons_self), Option.bind_eq_bind,
      Option.bind_some, ih fun g hg => hfields g (List.mem_cons_of_mem f hg), List.map_cons,
      List.foldl_cons]

/-- The first filter sets the attributes. -/
theorem filter_new (hi : ss[i]? = some s) (hs : HasKeys s) :
    Filter.contextFilter.filter ss i ⟨s, []⟩ = some (recordOf s) := by
  have hnodup : ((extraOf s).map Prod.fst).Nodup := by
    rw [map_fst_extraOf]
    exact extraFields_nodup
  have hset : (extraOf s).foldl (fun ms m => Json.assign m.1 m.2 ms) [] = extraOf s :=
    Json.members_of_nodup hnodup
  rw [Filter.filter, foldlM_setExtra hi hs, ← extraOf, hset, recordOf]

/-- Every further filter sets them to the same values. -/
theorem filter_again (hi : ss[i]? = some s) (hs : HasKeys s) :
    Filter.contextFilter.filter ss i (recordOf s) = some (recordOf s) := by
  have hnodup : ((extraOf s).map Prod.fst).Nodup := by
    rw [map_fst_extraOf]
    exact extraFields_nodup
  have hset : ∀ ms ⊆ extraOf s,
      ms.foldl (fun ms m => Json.assign m.1 m.2 ms) (extraOf s) = extraOf s := by
    intro ms hms
    induction ms with
    | nil => rfl
    | cons m ms ih =>
      rw [List.foldl_cons, assign_of_mem hnodup (hms List.mem_cons_self)]
      exact ih fun m' hm' => hms (List.mem_cons_of_mem m hm')
  rw [Filter.filter, foldlM_setExtra hi hs, ← extraOf, recordOf, hset _ (List.Subset.refl _)]

/-- All filters of a logger give the same record. -/
theorem foldlM_filter (hi : ss[i]? = some s) (hs : HasKeys s) (n : Nat) :
    (List.replicate (n + 1) Filter.contextFilter).foldlM
      (fun record f => f.filter ss i record) ⟨s, []⟩ = some (recordOf s) := by
  have hagain : ∀ n, (List.replicate n Filter.contextFilter).foldlM
      (fun record f => f.filter ss i record) (recordOf s) = some (recordOf s) := by
    intro n
    induction n with
    | zero => rfl
    | succ n ih =>
      rw [List.replicate_succ, List.foldlM_cons, filter_again hi hs, Option.bind_eq_bind,
        Option.bind_some, ih]
  rw [List.replicate_succ, List.foldlM_cons, filter_new hi hs, Option.bind_eq_bind,
    Option.bind_some, hagain]

/-! ## Passes and runs -/

/-- What the handlers emit for a session after `i` passes. -/
def sentIn (i : Nat) (s : Json) : List Emission :=
  (loggerAfter (i + 1)).handlers.map fun handler => (handler, recordOf s)

/-- One pass: the logger grows, every handler emits the session. -/
theorem logSession_eq (hi : ss[i]? = some s) (hs : HasKeys s) :
    logSession ss i (loggerAfter i) = some (loggerAfter (i + 1), sentIn i s) := by
  have hfilters : (loggerAfter (i + 1)).filters = List.replicate (i + 1) .contextFilter := rfl
  have hdebug : (loggerAfter (i + 1)).debug ss i s = some (sentIn i s) := by
    rw [Logger.debug, hfilters, foldlM_filter hi hs, Option.bind_eq_bind, Option.bind_some, sentIn]
  simp only [logSession, loggerAfter_succ, hi, Option.bind_eq_bind, Option.bind_some, hdebug]

/-- The passes over the last sessions of a list. -/
theorem logSessions_eq (before : List Json) {rest : List Json} (h : ∀ s ∈ rest, HasKeys s) :
    logSessions (before ++ rest) (List.range' before.length rest.length)
      (loggerAfter before.length) =
        some ((rest.zipIdx before.length).flatMap fun p => sentIn p.2 p.1) := by
  induction rest generalizing before with
  | nil => rfl
  | cons s rest ih =>
    have hi : (before ++ s :: rest)[before.length]? = some s := by simp
    have hrest := ih (before ++ [s]) fun t ht => h t (List.mem_cons_of_mem s ht)
    rw [List.append_assoc, List.singleton_append, List.length_append, List.length_singleton]
      at hrest
    rw [List.length_cons, List.range'_succ, logSessions,
      logSession_eq hi (h s List.mem_cons_self)]
    simp only [Option.bind_eq_bind, Option.bind_some, hrest, List.zipIdx_cons, List.flatMap_cons]

theorem gelfRecords_append (sent sent' : List Emission) :
    gelfRecords (sent ++ sent') = gelfRecords sent ++ gelfRecords sent' := by
  rw [gelfRecords, List.filter_append, List.map_append, ← gelfRecords, ← gelfRecords]

/-- The session of pass `i` leaves through `i + 1` handlers. -/
theorem gelfRecords_sentIn (i : Nat) (s : Json) :
    gelfRecords (sentIn i s) = List.replicate (i + 1) (recordOf s) := by
  have hgelf : ∀ n, gelfRecords ((List.replicate n Handler.gelfUdpHandler).map
      fun handler => (handler, recordOf s)) = List.replicate n (recordOf s) := by
    intro n
    rw [List.map_replicate, gelfRecords, List.filter_replicate, if_pos (decide_eq_true rfl),
      List.map_replicate]
  exact hgelf (i + 1)

/-- The records of a run: the session at place `i` comes `i + 1` times. -/
theorem gelfRecords_flatMap_sentIn (n : Nat) (ss : List Json) :
    gelfRecords ((ss.zipIdx n).flatMap fun p => sentIn p.2 p.1) =
      (ss.zipIdx n).flatMap fun p => List.replicate (p.2 + 1) (recordOf p.1) := by
  induction ss generalizing n with
  | nil => rfl
  | cons s ss ih =>
    rw [List.zipIdx_cons, List.flatMap_cons, List.flatMap_cons, gelfRecords_append,
      gelfRecords_sentIn, ih]

theorem length_flatMap_replicate (n : Nat) (ss : List Json) :
    2 * ((ss.zipIdx n).flatMap fun p => List.replicate (p.2 + 1) (recordOf p.1)).length =
      ss.length * (2 * n + ss.length + 1) := by
  induction ss generalizing n with
  | nil => simp
  | cons s ss ih =>
    rw [List.zipIdx_cons, List.flatMap_cons, List.length_append, List.length_replicate,
      Nat.mul_add, ih, List.length_cons]
    dsimp only
    ring

/-! ## The sessions of a listing -/

/-- The object of a session as it is read back. -/
def readBack (value : Fin 49 → Text) : Json := (Object.json (object value)).sortKeys

/-- The keys of an object are distinct. -/
theorem fieldNames_injective : Function.Injective fieldNames.get := by
  have hnodup : ((List.finRange 49).map fieldNames.get).Nodup := by decide +kernel
  intro j k h
  exact List.inj_on_of_nodup_map hnodup (List.mem_finRange j) (List.mem_finRange k) h

theorem names_nodup : ((List.finRange 49).map fun j => (fieldNames.get j).toList).Nodup := by
  apply (List.nodup_finRange 49).map
  exact fun j k h => fieldNames_injective (String.toList_injective h)

theorem plainKey_names : ∀ j, plainKey (fieldNames.get j).toList = true := by decide +kernel

/-- The members of an object as JSON. -/
def textMembers (value : Fin 49 → Text) (js : List (Fin 49)) : List (Text × Json) :=
  js.map fun j => ((fieldNames.get j).toList, .str (value j))

theorem json_object (value : Fin 49 → Text) :
    Object.json (object value) = .obj (textMembers value (List.finRange 49)) := by
  rw [Object.json, object, List.map_map]
  rfl

theorem map_fst_textMembers (value : Fin 49 → Text) (js : List (Fin 49)) :
    (textMembers value js).map Prod.fst = js.map fun j => (fieldNames.get j).toList := by
  rw [textMembers, List.map_map]
  rfl

/-- Texts have no keys inside. -/
theorem allKeysMembers_text (P : List Text → Prop) (value : Fin 49 → Text) (js : List (Fin 49)) :
    Json.AllKeysMembers P (textMembers value js) := by
  rw [Json.allKeysMembers_iff]
  intro m hm
  obtain ⟨j, -, rfl⟩ := List.mem_map.mp hm
  trivial

/-- The keys of an object of an export. -/
theorem allKeys_object {P : List Text → Prop}
    (hP : P ((List.finRange 49).map fun j => (fieldNames.get j).toList)) (value : Fin 49 → Text) :
    Json.AllKeys P (Object.json (object value)) := by
  rw [json_object]
  refine ⟨?_, allKeysMembers_text P value _⟩
  rwa [map_fst_textMembers]

theorem allKeysItems_objects {P : List Text → Prop}
    (hP : P ((List.finRange 49).map fun j => (fieldNames.get j).toList))
    (values : List (Fin 49 → Text)) :
    Json.AllKeysItems P (values.map fun value => Object.json (object value)) := by
  induction values with
  | nil => trivial
  | cons value values ih => exact ⟨allKeys_object hP value, ih⟩

theorem sortItems_objects (values : List (Fin 49 → Text)) :
    Json.sortItems (values.map fun value => Object.json (object value)) = values.map readBack := by
  induction values with
  | nil => rfl
  | cons value values ih => rw [List.map_cons, Json.sortItems, ih, List.map_cons, readBack]

/-- Every value is found under its key. -/
theorem get_readBack (value : Fin 49 → Text) (j : Fin 49) :
    (readBack value).get (fieldNames.get j).toList = some (.str (value j)) := by
  have hnodup : ((textMembers value (List.finRange 49)).map Prod.fst).Nodup := by
    rw [map_fst_textMembers]
    exact names_nodup
  have hmem : ((fieldNames.get j).toList, Json.str (value j)) ∈
      textMembers value (List.finRange 49) :=
    List.mem_map_of_mem (List.mem_finRange j)
  rw [readBack, json_object, Json.get_sortKeys hnodup, Json.get_eq_some_of_mem hnodup hmem]
  rfl

theorem exists_fieldNames {f : String × String} (hf : f ∈ extraFields) :
    ∃ j, fieldNames.get j = f.2 := by
  have hall : ∀ f ∈ extraFields, ∃ j, fieldNames.get j = f.2 := by decide +kernel
  exact hall f hf

theorem hasKeys_readBack (value : Fin 49 → Text) : HasKeys (readBack value) := by
  intro f hf
  obtain ⟨j, hj⟩ := exists_fieldNames hf
  rw [← hj, get_readBack]
  rfl

/-! ## Exactly once -/

/-- The extra fields of a record hold the values of an object. -/
def Carries (value : Fin 49 → Text) (record : Record) : Prop :=
  record.extra.map Prod.fst = extraFields.map (fun f => f.1.toList) ∧
    ∀ extra j, (extra, fieldNames.get j) ∈ extraFields →
      (extra.toList, .str (value j)) ∈ record.extra

/-- One run hands the sessions of the listing to the transport, each of them once and
in order. -/
def ExactlyOnce (L : Layout) (bs : Infobases) (ss : List Session) : Prop :=
  ∃ sent, toGraylog (printInfobases L bs) (printSessions L ss) = some sent ∧
    List.Forall₂ (fun s record => Carries (delivered bs.list s) record) ss (gelfRecords sent)

theorem carries_recordOf (value : Fin 49 → Text) : Carries value (recordOf (readBack value)) := by
  constructor
  · exact map_fst_extraOf _
  · intro extra j hf
    have hmem := List.mem_map_of_mem (f := fun f : String × String =>
      (f.1.toList, ((readBack value).get f.2.toList).getD (.num 0))) hf
    rwa [get_readBack, Option.getD_some] at hmem

/-- The sessions of a text leave through one more handler each. -/
theorem logText_report {values : List (Fin 49 → Text)} (hne : values ≠ []) :
    logText (report (values.map fun value => Object.json (object value))) =
      some (((values.map readBack).zipIdx 0).flatMap fun p => sentIn p.2 p.1) := by
  have hplain : PlainKeys ((List.finRange 49).map fun j => (fieldNames.get j).toList) := by
    intro k hk
    obtain ⟨j, -, rfl⟩ := List.mem_map.mp hk
    exact plainKey_names j
  have hloads := loads_report (by simpa using hne) (allKeysItems_objects hplain values)
    (allKeysItems_objects names_nodup values)
  have hkeys : ∀ s ∈ values.map readBack, HasKeys s := by
    intro s hs
    obtain ⟨value, -, rfl⟩ := List.mem_map.mp hs
    exact hasKeys_readBack value
  have hrun := logSessions_eq [] hkeys
  rw [List.nil_append, List.length_nil, ← List.range_eq_range'] at hrun
  rw [logText, hloads, sortItems_objects]
  simp only [Option.bind_eq_bind, Option.bind_some]
  exact hrun

theorem toGraylog_print (L : Layout) (bs : Infobases) (ss : List Session) :
    toGraylog (printInfobases L bs) (printSessions L ss) =
      logText (report ((ss.map fun s => delivered bs.list s).map
        fun value => Object.json (object value))) := by
  rw [toGraylog, sessionsData, sessionsDetail_print, Option.map_some, List.map_map, List.map_map]
  rfl

/-- A run over sessions hands over more than there are, unless there is one. -/
theorem length_of_toGraylog {L : Layout} {bs : Infobases} {ss : List Session} (hne : ss ≠ [])
    {sent : List Emission}
    (h : toGraylog (printInfobases L bs) (printSessions L ss) = some sent) :
    2 * (gelfRecords sent).length = ss.length * (ss.length + 1) := by
  rw [toGraylog_print, logText_report (by simpa using hne)] at h
  rw [← Option.some.inj h, gelfRecords_flatMap_sentIn, length_flatMap_replicate]
  simp only [List.length_map, Nat.mul_zero, Nat.zero_add]

/-- Without sessions the run ends in an exception. -/
theorem toGraylog_nil (L : Layout) (bs : Infobases) :
    toGraylog (printInfobases L bs) (printSessions L []) = none := by
  rw [toGraylog_print]
  rfl

/-- Every session is handed over exactly once only if there is one session. -/
theorem ExactlyOnce.length {L : Layout} {bs : Infobases} {ss : List Session}
    (h : ExactlyOnce L bs ss) : ss.length = 1 := by
  obtain ⟨sent, hsent, hrecords⟩ := h
  have hne : ss ≠ [] := by
    rintro rfl
    rw [toGraylog_nil] at hsent
    cases hsent
  have hcount := length_of_toGraylog hne hsent
  rw [← hrecords.length_eq, Nat.mul_comm] at hcount
  have htwo := Nat.eq_of_mul_eq_mul_left (List.length_pos_of_ne_nil hne) hcount
  omega

/-- The delivery is right for the listings of one session only. -/
theorem exactlyOnce_iff (L : Layout) (bs : Infobases) (ss : List Session) :
    ExactlyOnce L bs ss ↔ ss.length = 1 := by
  constructor
  · exact ExactlyOnce.length
  · intro h
    obtain ⟨s, rfl⟩ := List.length_eq_one_iff.mp h
    refine ⟨_, by rw [toGraylog_print]; exact logText_report (List.cons_ne_nil _ _), ?_⟩
    rw [gelfRecords_flatMap_sentIn]
    exact List.Forall₂.cons (carries_recordOf _) List.Forall₂.nil

/-- Two sessions are handed over as three records. -/
theorem two_sessions_not_exactlyOnce : ¬ ExactlyOnce racLayout ⟨[], List.nodup_nil⟩
    [ipv6Session, ipv6Session] := by
  intro h
  exact absurd h.length (by decide)

end OpsScripts.OneC
