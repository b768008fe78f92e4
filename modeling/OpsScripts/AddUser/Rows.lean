import OpsScripts.AddUser.Delta

/-!
# Processing the rows of the result file

Each row is skipped, disables an account, changes one or creates one. A branch
is a sequence of pipelines of directory cmdlets. The change branch stops at its
first error and reports it; the other branches go on with the next pipeline.
After every row the error log gets an entry if the error list of the session
has grown, and that list holds at most 256 errors.
-/

namespace OpsScripts.AddUser

/-- `$Dismissed`. -/
def dismissedOU : Text := "OU=Dismissed,OU=Employees,DC=moskvich,DC=ru"

/-- The directory cmdlets of the loop body. `uniqueName` and `createOU` stand for
the calls made inside the functions `SName` and `create`. -/
inductive Cmdlet where
  | findADUser (samAccountName : Text)
  | getADUser (identity : Text)
  | moveADObject (identity target : Text)
  | disableADUser (identity : Text)
  | uniqueName
  | renameADObject (identity : Text)
  | setADUser (identity : Text)
  | createOU (ou : Text)
  | newADUser (samAccountName : Text)
  deriving DecidableEq

/-- What the rows of one run meet outside the script. -/
structure Host where
  /-- An account with this name exists. -/
  hasAccount : Text → Bool
  /-- The account of the row is not named `$SName`. -/
  misnamed : Record → Bool
  /-- The cmdlet raises an error. -/
  raises : Cmdlet → Bool
  /-- Errors a row raises outside the directory cmdlets. -/
  otherErrors : Record → Nat

/-- Errors a sequence of pipelines raises; a pipeline ends at its first error. -/
def Host.pipelineErrors (h : Host) (ps : List (List Cmdlet)) : Nat :=
  ps.countP fun p => p.any h.raises

section Rows

variable [Culture]

/-- `$username`. -/
def username (r : Record) : Text := trim (toLower ((r .ipn).getD []))

/-- The test before the branches: the name is not empty and starts with no digit. -/
def usable (u : Text) : Bool := !u.isEmpty && !u.head?.any fun c => '0' ≤ c && c ≤ '9'

/-- `$OU`, with the external path moved below the employees. -/
def targetOU (r : Record) : Text :=
  let ou := (r .orgTextRu).getD []
  let external : Text := "OU=EXTERNAL,DC=Moskvich,DC=ru"
  if contains (toLower external) (toLower ou) then
    replace external "OU=EXTERNAL,OU=Employees,DC=Moskvich,DC=ru" ou
  else ou

variable (h : Host)

/-- The pipelines that disable an account. -/
def disablePipelines (r : Record) : List (List Cmdlet) :=
  [[.getADUser (username r), .moveADObject (username r) dismissedOU],
    [.disableADUser (username r)]]

/-- The pipelines that change an account. -/
def changePipelines (r : Record) : List (List Cmdlet) :=
  [[.uniqueName], [.getADUser (username r)]] ++
    (if h.misnamed r then [[.getADUser (username r), .renameADObject (username r)]] else []) ++
    [[.setADUser (username r)], [.createOU (targetOU r)],
      [.getADUser (username r), .moveADObject (username r) (targetOU r)]]

/-- The pipelines that create an account. -/
def createPipelines (r : Record) : List (List Cmdlet) :=
  [[.uniqueName], [.createOU (targetOU r)], [.newADUser (username r)]]

/-- The row goes to the disable branch. -/
def isDismissed (r : Record) : Bool := usable (username r) && isInactive r

/-- The row goes to the `try` block of the change branch. -/
def isChanged (r : Record) : Bool :=
  usable (username r) && !isInactive r && !h.raises (.findADUser (username r)) &&
    h.hasAccount (username r)

/-- Errors raised by directory cmdlets while a row is processed. -/
def cmdletErrors (r : Record) : Nat :=
  if !usable (username r) then 0
  else if isInactive r then h.pipelineErrors (disablePipelines r)
  else if h.raises (.findADUser (username r)) then 1
  else if h.hasAccount (username r) then min 1 (h.pipelineErrors (changePipelines h r))
  else h.pipelineErrors (createPipelines r)

/-- The row fails: some directory cmdlet raises an error. -/
def rowFails (r : Record) : Prop := 0 < cmdletErrors h r

/-! ## The error log -/

/-- `$Error.count`, `$erorcount` and the lines of the error log. -/
structure ErrorState where
  count : Nat
  erorcount : Nat
  log : List Text

/-- `$MaximumErrorCount`. -/
def maximumErrorCount : Nat := 256

/-- An entry of the error log. -/
def errorEntry (date : Text) (r : Record) (what : Text) : Text :=
  date ++ "; ".toList ++ username r ++ "; ".toList ++ what ++ " ".toList

/-- Process one row. -/
def processRow (date : Text) (st : ErrorState) (r : Record) : ErrorState :=
  let count := min maximumErrorCount (st.count + (h.otherErrors r + cmdletErrors h r))
  let log :=
    if isChanged h r && 0 < cmdletErrors h r then
      st.log ++ [errorEntry date r "error change"]
    else st.log
  if st.erorcount < count then ⟨count, count, log ++ [errorEntry date r "error detected"]⟩
  else ⟨count, st.erorcount, log⟩

/-- Process all rows; `count` errors were raised before the loop. -/
def processRows (date : Text) (count : Nat) (rows : List Record) : ErrorState :=
  rows.foldl (processRow h date) ⟨count, 0, []⟩

variable {h} {date : Text}

/-- The reported count never exceeds the error count. -/
theorem erorcount_le_count {st : ErrorState} (hst : st.erorcount ≤ st.count)
    (hmax : st.count ≤ maximumErrorCount) (r : Record) :
    (processRow h date st r).erorcount ≤ (processRow h date st r).count ∧
      (processRow h date st r).count ≤ maximumErrorCount := by
  unfold processRow
  dsimp only
  split <;> constructor <;> simp only <;> omega

/-- Processing a row only adds to the error log. -/
theorem log_prefix_processRow (st : ErrorState) (r : Record) :
    st.log <+: (processRow h date st r).log := by
  unfold processRow
  dsimp only
  split <;> split <;> simp

theorem log_prefix_foldl (rows : List Record) (st : ErrorState) :
    st.log <+: (rows.foldl (processRow h date) st).log := by
  induction rows generalizing st with
  | nil => exact List.prefix_rfl
  | cons r rows ih => exact (log_prefix_processRow st r).trans (ih _)

/-- A failing row is reported as long as the error list is not full. -/
theorem report_processRow (date : Text) {st : ErrorState} {r : Record}
    (hst : st.erorcount ≤ st.count)
    (hfull : st.count < maximumErrorCount) (hfail : rowFails h r) :
    errorEntry date r "error detected" ∈ (processRow h date st r).log := by
  unfold rowFails at hfail
  have hlt : st.erorcount <
      min maximumErrorCount (st.count + (h.otherErrors r + cmdletErrors h r)) := by omega
  simp only [processRow, hlt, ite_true]
  exact List.mem_append_right _ (List.mem_singleton_self _)

end Rows

end OpsScripts.AddUser
