import OpsScripts.Core.Text

/-!
# Delimited records, one to a line

The reader follows the import cmdlets character by character: leading blanks
of a field are skipped, a quote at the start of a field opens a quoted field
in which doubled quotes stand for one, and what follows a closing quote up to
the delimiter is appended to the field. The writer quotes every value and
writes nothing for a missing one. Reading a written record returns its values.
A record is taken to be one line of the file: a quoted value that goes over a line
break, which the cmdlets read too, is left out.
-/

namespace OpsScripts

namespace Csv

/-- Where the reader stands inside a field; `cur` is the field so far. -/
inductive State where
  | start
  | word (cur : Text)
  | quoted (cur : Text)
  /-- A quote inside quotes: the first of two, or the closing one. -/
  | quote (cur : Text)
  /-- Reading up to the delimiter; `eat` drops `temp` where it is blank. -/
  | tail (cur temp : Text) (eat : Bool)

/-- Blanks of the reader. -/
def isBlank (c : Char) : Bool := c == ' ' || c == '\t'

/-- The field a state stands for where the field ends. -/
def State.field : State → Text
  | .start => []
  | .word cur => cur
  | .quoted cur => cur
  | .quote cur => cur
  | .tail cur temp eat => if eat && temp.all isBlank then cur else cur ++ temp

/-- Read the fields of a line. -/
def parseFrom (delim : Char) : State → Text → List Text
  | st, [] => [st.field]
  | .start, c :: cs =>
    if c = delim then [] :: parseFrom delim .start cs
    else if c = '"' then parseFrom delim (.quoted []) cs
    else if isBlank c then parseFrom delim .start cs
    else parseFrom delim (.word [c]) cs
  | .word cur, c :: cs =>
    if c = delim then cur :: parseFrom delim .start cs
    else if c = '"' then parseFrom delim (.tail (cur ++ [c]) [] false) cs
    else if isBlank c then parseFrom delim (.tail (cur ++ [c]) [] true) cs
    else parseFrom delim (.word (cur ++ [c])) cs
  | .quoted cur, c :: cs =>
    if c = '"' then parseFrom delim (.quote cur) cs
    else parseFrom delim (.quoted (cur ++ [c])) cs
  | .quote cur, c :: cs =>
    if c = '"' then parseFrom delim (.quoted (cur ++ [c])) cs
    else if c = delim then cur :: parseFrom delim .start cs
    else parseFrom delim (.tail cur [c] true) cs
  | .tail cur temp eat, c :: cs =>
    if c = delim then (State.tail cur temp eat).field :: parseFrom delim .start cs
    else parseFrom delim (.tail cur (temp ++ [c]) eat) cs

/-- The fields of a line. -/
def parse (delim : Char) (line : Text) : List Text := parseFrom delim .start line

/-- Double the quotes of a value. -/
def escape (t : Text) : Text := t.flatMap fun c => if c = '"' then ['"', '"'] else [c]

/-- A written field: quoted, or nothing where there is no value. -/
def quoteField : Option Text → Text
  | none => []
  | some t => '"' :: escape t ++ ['"']

/-- A written line. -/
def quoteLine (delim : Char) (fields : List (Option Text)) : Text :=
  [delim].intercalate (fields.map quoteField)

theorem parseFrom_escape (delim : Char) (cur t rest : Text) :
    parseFrom delim (.quoted cur) (escape t ++ '"' :: rest) =
      parseFrom delim (.quote (cur ++ t)) rest := by
  induction t generalizing cur with
  | nil => simp [escape, parseFrom]
  | cons c t ih =>
    by_cases hc : c = '"'
    · subst hc
      have he : escape ('"' :: t) = '"' :: '"' :: escape t := by simp [escape]
      simp only [he, List.cons_append, parseFrom, ite_true, ih]
      simp
    · have he : escape (c :: t) = c :: escape t := by simp [escape, hc]
      simp only [he, List.cons_append, parseFrom, hc, ite_false, ih]
      simp

/-- Reading a written field up to the delimiter. -/
theorem parseFrom_quoteField {delim : Char} (hd : delim ≠ '"') (f : Option Text) (rest : Text) :
    parseFrom delim .start (quoteField f ++ delim :: rest) =
      f.getD [] :: parseFrom delim .start rest := by
  cases f with
  | none => simp [quoteField, parseFrom]
  | some t =>
    simp only [quoteField, List.cons_append, List.append_assoc, List.nil_append, parseFrom,
      Ne.symm hd, ite_false, ite_true, parseFrom_escape, hd, Option.getD_some]

/-- Reading a written field at the end of the line. -/
theorem parseFrom_quoteField_end {delim : Char} (hd : delim ≠ '"') (f : Option Text) :
    parseFrom delim .start (quoteField f) = [f.getD []] := by
  cases f with
  | none => rfl
  | some t =>
    have h := parseFrom_escape delim [] t []
    simp only [List.nil_append] at h
    simp only [quoteField, List.cons_append, parseFrom, Ne.symm hd, ite_false, ite_true, h,
      State.field, Option.getD_some]

/-- Reading a written line returns its values, the missing ones as empty texts. -/
theorem parse_quoteLine {delim : Char} (hd : delim ≠ '"') {fields : List (Option Text)}
    (hne : fields ≠ []) : parse delim (quoteLine delim fields) = fields.map (·.getD []) := by
  induction fields with
  | nil => exact absurd rfl hne
  | cons f fs ih =>
    cases fs with
    | nil => simpa [parse, quoteLine] using parseFrom_quoteField_end hd f
    | cons g gs =>
      have hline : quoteLine delim (f :: g :: gs) =
          quoteField f ++ delim :: quoteLine delim (g :: gs) := by
        simp [quoteLine, List.intercalate]
      rw [parse, hline, parseFrom_quoteField hd, List.map_cons]
      exact congrArg _ (ih (List.cons_ne_nil g gs))

/-! ## Objects -/

/-- An imported record: a value, or nothing, for every column name of the header. -/
abbrev Object := List (Text × Option Text)

/-- The object of a record under a header; columns without a field have no value. -/
def object (header fields : List Text) : Object :=
  header.zipIdx.map fun (name, i) => (name, fields[i]?)

/-- `Import-Csv`: the first line names the columns, blank lines are skipped. -/
def importCsv (delim : Char) : List Text → List Object
  | [] => []
  | header :: lines =>
    (lines.filter fun l => parse delim l ≠ [[]]).map fun l =>
      object (parse delim header) (parse delim l)

/-- The value of a property; names are compared without case. -/
def Object.get [Culture] (o : Object) (name : Text) : Option Text :=
  (o.find? fun p => eqIgnoreCase p.1 name).bind (·.2)

end Csv

end OpsScripts
