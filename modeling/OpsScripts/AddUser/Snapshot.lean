import OpsScripts.Core.Csv

/-!
# The trimmed snapshot of `Org.csv`

The synchroniser imports `Org.csv`, keeps eleven of its columns in a fixed
order and exports them, every value quoted. A file is the list of its lines,
a record is one line. The same eleven names head the result file that the
rows are later imported from.
-/

namespace OpsScripts.AddUser

/-- The columns of `select IPN, Surname, …`, in its order. -/
inductive Column where
  | ipn | surname | name | orgTextRu | emailShort | mobilePhone | additionalPhone
  | foncRu | nameRuOrg | isActive | patro
  deriving DecidableEq

namespace Column

/-- The order of the selection. -/
def all : List Column :=
  [ipn, surname, name, orgTextRu, emailShort, mobilePhone, additionalPhone, foncRu, nameRuOrg,
    isActive, patro]

/-- The column names. -/
def header : Column → Text
  | ipn => "IPN"
  | surname => "Surname"
  | name => "Name"
  | orgTextRu => "ORG_TEXT_RU"
  | emailShort => "EMAIL_short"
  | mobilePhone => "MOBILEPHONE"
  | additionalPhone => "ADDITIONALPHONE"
  | foncRu => "FONC_RU"
  | nameRuOrg => "NAME_RU_ORG"
  | isActive => "IsActive"
  | patro => "Patro"

end Column

/-- An object with the selected properties; a property may have no value. -/
abbrev Record := Column → Option Text

/-- The first line of the trimmed file. -/
def headerLine : Text := Csv.quoteLine ':' (Column.all.map fun c => some c.header)

/-- The line of a record in the trimmed file. -/
def recordLine (r : Record) : Text := Csv.quoteLine ':' (Column.all.map r)

/-- `Export-Csv -Delimiter : -NoTypeInformation`; without objects the file stays empty. -/
def exportCsv : List Record → List Text
  | [] => []
  | r :: rs => headerLine :: (r :: rs).map recordLine

/-- `$zagolovoc`, the first line of the result file. -/
def zagolovoc : Text :=
  "IPN:Surname:Name:ORG_TEXT_RU:EMAIL_short:MOBILEPHONE:ADDITIONALPHONE:FONC_RU:NAME_RU_ORG:IsActive:Patro"

section Import

variable [Culture]

/-- The selected properties of an imported object. -/
def selectColumns (o : Csv.Object) : Record := fun c => o.get c.header

/-- `Import-Csv $fileDir -Delimiter ':' | select …`. -/
def importRecords (lines : List Text) : List Record :=
  (Csv.importCsv ':' lines).map selectColumns

/-- `$filenew`, the trimmed file made from the lines of `Org.csv`. -/
def trimFile (org : List Text) : List Text := exportCsv (importRecords org)

/-- `$ADUsers`, imported from the result file behind its header. -/
def adUsers (result : List Text) : List Record := importRecords (zagolovoc :: result)

end Import

/-! ## Lines of the trimmed file -/

/-- A written line is `pre:last`, where `last` is the written last column. -/
theorem recordLine_eq_append (r : Record) :
    ∃ pre, recordLine r = pre ++ ':' :: Csv.quoteField (r .patro) := by
  refine ⟨Csv.quoteLine ':' (Column.all.dropLast.map r), ?_⟩
  simp [recordLine, Csv.quoteLine, Column.all, List.intercalate]

/-- The last piece of a record line is empty or ends in a quote. -/
theorem lastPiece_recordLine (r : Record) :
    lastPiece ':' (recordLine r) = [] ∨ (lastPiece ':' (recordLine r)).getLast? = some '"' := by
  obtain ⟨pre, h⟩ := recordLine_eq_append r
  rw [h, lastPiece_append_cons]
  cases hp : r .patro with
  | none => exact Or.inl (lastPiece_of_notMem (by simp [Csv.quoteField]))
  | some t =>
    refine Or.inr (getLast?_lastPiece ?_ (by decide))
    exact List.getLast?_concat

/-- The export starts with the header and has one line for each record. -/
theorem getElem?_exportCsv_succ (rs : List Record) (i : Nat) :
    (exportCsv rs)[i + 1]? = rs[i]?.map recordLine := by
  cases rs with
  | nil => rfl
  | cons r rs => rw [exportCsv, List.getElem?_cons_succ, List.getElem?_map]

/-- Every line of an export is the header or the line of a record. -/
theorem mem_exportCsv {rs : List Record} {l : Text} (h : l ∈ exportCsv rs) :
    l = headerLine ∨ ∃ r ∈ rs, l = recordLine r := by
  cases rs with
  | nil => exact absurd h List.not_mem_nil
  | cons r rs =>
    rcases List.mem_cons.mp h with rfl | h
    · exact Or.inl rfl
    · obtain ⟨s, hs, rfl⟩ := List.mem_map.mp h
      exact Or.inr ⟨s, hs, rfl⟩

/-! ## Reading lines back -/

/-- The record with a value in every column, missing ones as empty texts. -/
def filled (r : Record) : Record := fun c => some ((r c).getD [])

/-- The record that the header line would be. -/
def headerRecord : Record := fun c => some c.header

@[simp] theorem recordLine_headerRecord : recordLine headerRecord = headerLine := rfl

/-- The result header names the columns in the order of the selection. -/
theorem parse_zagolovoc : Csv.parse ':' zagolovoc = Column.all.map Column.header := by decide

theorem parse_recordLine (r : Record) :
    Csv.parse ':' (recordLine r) = Column.all.map fun c => (r c).getD [] := by
  rw [recordLine, Csv.parse_quoteLine (by decide) (by simp [Column.all]), List.map_map]
  rfl

/-- A list of record lines is written from records. -/
theorem exists_records {lines : List Text} (h : ∀ l ∈ lines, ∃ r, l = recordLine r) :
    ∃ rs : List Record, lines = rs.map recordLine := by
  induction lines with
  | nil => exact ⟨[], rfl⟩
  | cons l lines ih =>
    obtain ⟨rs, rfl⟩ := ih fun m hm => h m (List.mem_cons_of_mem l hm)
    obtain ⟨r, rfl⟩ := h l List.mem_cons_self
    exact ⟨r :: rs, rfl⟩

/-- Records with the same line are read back as the same row. -/
theorem filled_eq_of_recordLine {r s : Record} (h : recordLine r = recordLine s) :
    filled r = filled s := by
  have hp := congrArg (Csv.parse ':') h
  rw [parse_recordLine, parse_recordLine] at hp
  funext c
  have hc : c ∈ Column.all := by cases c <;> decide
  exact congrArg some (List.map_inj_left.mp hp c hc)

section Import

variable [Culture]

/-- Different columns have different names, also without case. -/
theorem eqIgnoreCase_header (c d : Column) :
    eqIgnoreCase c.header d.header = decide (c = d) := by
  have hascii : ∀ e : Column, isAscii e.header = true := by
    intro e
    cases e <;> decide
  rw [eqIgnoreCase_ascii (hascii c) (hascii d)]
  cases c <;> cases d <;> decide

/-- Record `i` stands on line `i + 1` of the trimmed file. -/
theorem getElem?_trimFile {org : List Text} {i : Nat} {r : Record}
    (h : (importRecords org)[i]? = some r) : (trimFile org)[i + 1]? = some (recordLine r) := by
  rw [trimFile, getElem?_exportCsv_succ, h, Option.map_some]

/-- Under the result header the fields of a line are found by position. -/
theorem selectColumns_object (values : Record) :
    selectColumns (Csv.object (Column.all.map Column.header) (Column.all.map fun c =>
      (values c).getD [])) = filled values := by
  funext c
  cases c <;>
    simp [selectColumns, Csv.object, Csv.Object.get, Column.all, eqIgnoreCase_header, filled]

/-- Importing a result file returns the records its lines were written from. -/
theorem adUsers_map_recordLine (rs : List Record) :
    adUsers (rs.map recordLine) = rs.map filled := by
  have hlines : ∀ l ∈ rs.map recordLine, (Csv.parse ':' l ≠ [[]]) = true := by
    intro l hl
    obtain ⟨r, _, rfl⟩ := List.mem_map.mp hl
    simp [parse_recordLine, Column.all]
  simp only [adUsers, importRecords, Csv.importCsv]
  rw [List.filter_eq_self.mpr (by simpa using hlines), List.map_map, List.map_map]
  refine List.map_congr_left fun r _ => ?_
  simp only [Function.comp_apply, parse_zagolovoc, parse_recordLine, selectColumns_object]

end Import

end OpsScripts.AddUser
