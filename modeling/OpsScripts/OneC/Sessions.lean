import OpsScripts.Core.KeyValue

/-!
# The session export

`sessions_detail` reads two listings of `rac` with the expression `(.*):(.*)`. The
matches of the infobase summary become a dictionary from identifiers to names. The
matches of the session list are rewritten one by one and then taken 49 at a time;
the two times of a session were cut in front of their seconds and are put together
again. An index out of range makes the result `none`.
-/

namespace OpsScripts.OneC

/-- A match of the expression: the two groups. -/
abbrev Match := Text × Text

/-! ## The dictionary of infobases -/

/-- A dictionary in insertion order. -/
abbrev Dict := List (Text × Text)

/-- `d[k] = v`: an existing key keeps its place. -/
def Dict.set : Dict → Text → Text → Dict
  | [], k, v => [(k, v)]
  | (k', v') :: d, k, v => if k' = k then (k, v) :: d else (k', v') :: Dict.set d k v

/-- The loop over the matches `bb`: a match with the key `infobase ` takes the value of
the next match as the name. -/
def collect (dbb : Dict) : List Match → Option Dict
  | [] => some dbb
  | m :: bb =>
    if m.1 = "infobase ".toList then do
      let next ← bb.head?
      collect (dbb.set m.2 next.2) bb
    else collect dbb bb

/-! ## The matches of the session list -/

/-- The Russian name of the administrator is replaced, whatever the key is. -/
def replaceAdmin (m : Match) : Match :=
  if m.2 = " Администратор".toList then (m.1, "Administrator".toList) else m

/-- The identifiers of infobases are replaced by the names, key after key. -/
def insertName (dbb : Dict) (m : Match) : Match :=
  dbb.foldl (fun m e => if m.2 = e.1 then (m.1, e.2) else m) m

/-- A time from the key that swallowed its hours and minutes, and its seconds. -/
def joinTime (m : Match) : Option Text := do
  let rep := m.1.splitOn ':'
  let hours ← rep[1]?
  let minutes ← rep[2]?
  some (replace ['T'] [' '] hours ++ ':' :: (minutes ++ ':' :: m.2))

/-! ## Objects -/

/-- The 49 keys of an object. -/
def fieldNames : Vector String 49 :=
  #v["session", "session-id", "infobase", "connection", "process", "user-name", "host", "app-id",
    "locale", "started-at", "last-active-at", "hibernate", "passive-session-hibernate-time",
    "hibernate-session-terminate-time", "blocked-by-dbms", "blocked-by-ls", "bytes-all",
    "bytes-last-5min", "calls-all", "calls-last-5min", "dbms-bytes-all", "dbms-bytes-last-5min",
    "db-proc-info", "db-proc-took", "db-proc-took-at", "duration-all", "duration-all-dbms",
    "duration-current", "duration current-dbms", "duration-last-5min", "duration-last-5min-dbms",
    "memory-current", "memory-last-5min", "memory-total", "read-current", "read-last-5min",
    "read-total", "write-current", "write-last-5min", "write-total", "duration-current-service",
    "duration-last-5min-service", "duration-all-service", "current-service-name",
    "cpu-time-current", "cpu-time-last-5min", "cpu-time-total", "data-separation", "client-ip"]

/-- The object of a session: a value for each key. -/
abbrev Object := List (Text × Text)

/-- The object with a given value for each key. -/
def object (value : Fin 49 → Text) : Object :=
  (List.finRange 49).map fun j => ((fieldNames.get j).toList, value j)

/-- One pass of the loop: the object of the 49 matches from `i` on. -/
def sessionObject (ss : List Match) (i : Nat) : Option Object := do
  let repstarted ← joinTime (← ss[i + 9]?)
  let lastactive ← joinTime (← ss[i + 10]?)
  (List.finRange 49).mapM fun (j : Fin 49) => do
    let value ← if j.val = 9 then some repstarted else if j.val = 10 then some lastactive
      else (ss[i + j]?).map Prod.snd
    some ((fieldNames.get j).toList, value)

/-- `range(1, n, 49)`. -/
def starts (n : Nat) : List Nat := (List.range ((n - 1 + 48) / 49)).map fun k => 1 + k * 49

/-- The objects of the export. -/
def sessionsDetail (racInfobases rsessions : Text) : Option (List Object) := do
  let dbb ← collect [] (findallKeyValue racInfobases)
  let ss := (("0".toList, "0".toList) :: findallKeyValue rsessions).map replaceAdmin
  let ss := ss.map (insertName dbb)
  (starts ss.length).mapM (sessionObject ss)

/-! ## Objects and their values -/

/-- An object is known from its values. -/
theorem object_injective : Function.Injective object := by
  intro v w h
  funext j
  have hj := congrArg (fun o => o[j.val]?) h
  simpa [object] using hj

end OpsScripts.OneC
