import OpsScripts.Veeam.SyncResult
import OpsScripts.Zabbix.Listings

/-!
# Discovery in `zabbix_vbr_job.ps1`

`ConvertTo-ZabbixDiscoveryJson` makes a table with a macro for each property of an object, and
`ConvertTo-Json -Compress` prints the tables. The members of a table come in the order of its
hashes, which is not known. The monitoring reads the macros of each table.
-/

namespace OpsScripts.Veeam

open Json
open Zabbix (macroValue lowLevelDiscovery mapM_map_eq_some)

/-! ## `ConvertTo-Json -Compress` -/

/-- Whether a character is written by its number. -/
def byNumber (c : Char) : Bool :=
  c.toNat < 32 || "'<>&".toList.contains c || c.toNat == 0x85 || c.toNat == 0x2028 ||
    c.toNat == 0x2029

/-- A character of a string. -/
def escapeChar (c : Char) : Text :=
  if c = '\r' then ['\\', 'r']
  else if c = '\t' then ['\\', 't']
  else if c = '"' then ['\\', '"']
  else if c = '\\' then ['\\', '\\']
  else if c = '\n' then ['\\', 'n']
  else if c = '\x08' then ['\\', 'b']
  else if c = '\x0c' then ['\\', 'f']
  else if byNumber c then escapeUnit c.toNat
  else [c]

/-- The characters that are written by their numbers are no surrogates. -/
theorem toNat_lt_of_byNumber {c : Char} (h : byNumber c = true) : c.toNat < 65536 := by
  have hletters : ∀ c ∈ "'<>&".toList, c.toNat < 65536 := by decide
  simp only [byNumber, Bool.or_eq_true, decide_eq_true_eq, List.contains_iff_mem,
    beq_iff_eq] at h
  rcases h with (((h | h) | h) | h) | h
  · omega
  · exact hletters c h
  all_goals omega

/-- An escape sequence is read as its character. -/
theorem spelling_escapeChar (c : Char) : Spelling c (escapeChar c) := by
  unfold escapeChar
  split_ifs with hr ht hquote hback hn hb hf hnumber
  · subst hr
    exact ⟨⟨'\\', rfl, by decide⟩, fun rest => rfl⟩
  · subst ht
    exact ⟨⟨'\\', rfl, by decide⟩, fun rest => rfl⟩
  · subst hquote
    exact ⟨⟨'\\', rfl, by decide⟩, fun rest => rfl⟩
  · subst hback
    exact ⟨⟨'\\', rfl, by decide⟩, fun rest => rfl⟩
  · subst hn
    exact ⟨⟨'\\', rfl, by decide⟩, fun rest => rfl⟩
  · subst hb
    exact ⟨⟨'\\', rfl, by decide⟩, fun rest => rfl⟩
  · subst hf
    exact ⟨⟨'\\', rfl, by decide⟩, fun rest => rfl⟩
  · refine ⟨⟨'\\', rfl, by decide⟩, fun rest => ?_⟩
    rw [escapeUnit, List.cons_append, List.cons_append, readChar, if_pos rfl, readEscape,
      readUnit_hex4 (toNat_lt_of_byNumber hnumber) (toNat_notSurrogate c), Char.ofNat_toNat]
  · refine ⟨⟨c, rfl, hquote⟩, fun rest => ?_⟩
    have hcontrol : ¬c.toNat < 32 := by
      intro hlt
      apply hnumber
      simp [byNumber, hlt]
    rw [List.singleton_append, readChar, if_neg hback, if_neg hcontrol]

/-- `ConvertTo-Json -Compress`. -/
def powershell : Style where
  behindComma := []
  behindColon := []
  escape := escapeChar
  blank_comma := blank_nil
  blank_colon := blank_nil
  spelling := spelling_escapeChar

/-! ## The modes -/

/-- A mode: which objects of an export are selected, and the properties made of them. -/
structure Mode (α : Type) where
  selected : α → Bool
  property : List (String × (α → Text))
  distinct : (property.map fun p => p.1.toList).Nodup
  /-- `ToUpper()` leaves them. -/
  upper : ∀ p ∈ property, ∀ c ∈ p.1.toList, c.val < 128 ∧ c.toUpper = c

/-- A machine of a job, of `backupvmbyjob.xml`. -/
structure JobVm where
  job : Text
  name : Text

section Modes

variable [Culture]

def discoveryBackupJobs : Mode Job where
  selected j := j.isScheduleEnabled &&
    (like j.jobType "Backup".toList || like j.jobType "EpAgentBackup".toList)
  property := [("JOBNAME", Job.name), ("JOBID", Job.id)]
  distinct := by decide
  upper := by decide

def discoveryBackupSyncJobs : Mode Job where
  selected j := j.isScheduleEnabled && like j.jobType "BackupSync".toList
  property := [("JOBBSNAME", Job.name), ("JOBBSID", Job.id)]
  distinct := by decide
  upper := by decide

def discoveryTapeJobs : Mode Job where
  selected _ := true
  property := [("JOBTAPENAME", Job.name), ("JOBTAPEID", Job.id)]
  distinct := by decide
  upper := by decide

def discoveryEndpointJobs : Mode Job where
  selected _ := true
  property := [("JOBENDPOINTNAME", Job.name), ("JOBENDPOINTID", Job.id)]
  distinct := by decide
  upper := by decide

def discoveryReplicaJobs : Mode Job where
  selected j := j.isScheduleEnabled && like j.jobType "Replica".toList
  property := [("JOBREPLICANAME", Job.name), ("JOBREPLICAID", Job.id)]
  distinct := by decide
  upper := by decide

def discoveryRepo : Mode Text where
  selected _ := true
  property := [("REPONAME", fun name => name)]
  distinct := by decide
  upper := by decide

def discoveryBackupVmsByJobs : Mode JobVm where
  selected _ := true
  property := [("JOBVMNAME", JobVm.name), ("JOBNAME", JobVm.job)]
  distinct := by decide
  upper := by decide

variable {α : Type}

/-- `"{#$($P.ToUpper())}"`. -/
def macroName (p : String) : Text := '\x7b' :: '#' :: (toUpper p.toList ++ ['\x7d'])

/-- `$Element`. -/
def Mode.element (m : Mode α) (object : α) : List (Text × Json) :=
  m.property.map fun p => (macroName p.1, .str (p.2 object))

/-- `@{ 'data' = $out } | ConvertTo-Json -Compress`, with the order of the members of a table. -/
def Mode.document (m : Mode α) (order : List (Text × Json) → List (Text × Json))
    (xml : List α) : Text :=
  let out := (xml.filter m.selected).map fun object => Json.obj (order (m.element object))
  powershell.compact (.obj [("data".toList, .arr out)]) ++ ['\r', '\n']

end Modes

/-! ## From the objects to the macros -/

section RoundTrip

variable [Culture] {α : Type} (m : Mode α)

theorem macroName_property {p : String × (α → Text)} (hp : p ∈ m.property) :
    macroName p.1 = '\x7b' :: '#' :: (p.1.toList ++ ['\x7d']) := by
  have hupper : toUpper p.1.toList = p.1.toList := by
    refine (List.map_congr_left fun c hc => ?_).trans (List.map_id _)
    obtain ⟨hascii, hsame⟩ := m.upper p hp c hc
    rw [Culture.upper_ascii c hascii, hsame, id_eq]
  rw [macroName, hupper]

/-- Each property has a macro of its own. -/
theorem nodup_element (object : α) : ((m.element object).map Prod.fst).Nodup := by
  have hnames : (m.element object).map Prod.fst =
      (m.property.map fun p => p.1.toList).map fun t => '\x7b' :: '#' :: (t ++ ['\x7d']) := by
    rw [Mode.element, List.map_map, List.map_map]
    apply List.map_congr_left
    intro p hp
    exact macroName_property m hp
  have hinjective : Function.Injective fun t : Text => '\x7b' :: '#' :: (t ++ ['\x7d']) := by
    intro s t h
    simpa using h
  rw [hnames]
  exact m.distinct.map hinjective

variable {order : List (Text × Json) → List (Text × Json)} (horder : ∀ ms, (order ms).Perm ms)

include horder

theorem allKeys_table (object : α) : AllKeys List.Nodup (.obj (order (m.element object))) := by
  refine ⟨((horder _).map Prod.fst).nodup_iff.mpr (nodup_element m object),
    allKeysMembers_iff.mpr fun e he => ?_⟩
  obtain ⟨p, -, rfl⟩ := List.mem_map.mp ((horder _).mem_iff.mp he)
  trivial

/-- A macro has the value of its property. -/
theorem macroValue_table (object : α) {p : String × (α → Text)} (hp : p ∈ m.property) :
    macroValue (.obj (order (m.element object))) (macroName p.1) = some (p.2 object) := by
  have hmem : (macroName p.1, Json.str (p.2 object)) ∈ m.element object := by
    rw [Mode.element, List.mem_map]
    exact ⟨p, hp, rfl⟩
  have hnodup := nodup_element m object
  rw [macroValue, get_perm (horder _) (((horder _).map Prod.fst).nodup_iff.mpr hnodup),
    get_eq_some_of_mem hnodup hmem]

/-- The tables of the objects are read as their properties. -/
theorem macroValues_table (object : α) :
    (m.property.map fun p => macroName p.1).mapM
        (macroValue (.obj (order (m.element object)))) =
      some (m.property.map fun p => p.2 object) :=
  mapM_map_eq_some fun _ hp => macroValue_table m horder object hp

theorem allKeys_tables (objects : List α) :
    AllKeys List.Nodup (.arr (objects.map fun object => .obj (order (m.element object)))) := by
  induction objects with
  | nil => trivial
  | cons object objects ih => exact ⟨allKeys_table m horder object, ih⟩

/-- The monitoring finds exactly the objects that are selected, in their order and with their
properties, whatever letters these have. -/
theorem lowLevelDiscovery_document (xml : List α) :
    lowLevelDiscovery (m.document order xml) (m.property.map fun p => macroName p.1) =
      some ((xml.filter m.selected).map fun object => m.property.map fun p => p.2 object) := by
  have hkeys : AllKeys List.Nodup (.obj [("data".toList,
      .arr ((xml.filter m.selected).map fun object => .obj (order (m.element object))))]) :=
    ⟨List.nodup_singleton _, allKeys_tables m horder _, trivial⟩
  have hloads := powershell.loads_compact hkeys blank_nil (b := ['\r', '\n']) (by decide)
  rw [lowLevelDiscovery, Mode.document]
  rw [List.nil_append] at hloads
  rw [hloads]
  exact mapM_map_eq_some fun object _ => macroValues_table m horder object

end RoundTrip

/-- A scheduled job with quotation marks in its name, and one without a schedule. -/
def quotedJobs : List Job :=
  [⟨"7".toList, "\"Nightly\" & <more>".toList, "backup".toList, true⟩,
    ⟨"8".toList, "Old".toList, "Backup".toList, false⟩]

theorem lowLevelDiscovery_document_quoted :
    letI := Culture.ascii
    lowLevelDiscovery (discoveryBackupJobs.document List.reverse quotedJobs)
        (discoveryBackupJobs.property.map fun p => macroName p.1) =
      some [["\"Nightly\" & <more>".toList, "7".toList]] := by
  let _ := Culture.ascii
  rw [lowLevelDiscovery_document discoveryBackupJobs List.reverse_perm]
  have hselected : quotedJobs.filter discoveryBackupJobs.selected = quotedJobs.take 1 := by
    decide
  rw [hselected]
  rfl

end OpsScripts.Veeam
