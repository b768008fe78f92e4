import OpsScripts.Core.Replacement

/-!
# States of `zabbix_vbr_job.ps1`

The names of states are replaced by the numbers that the monitoring knows.
-/

namespace OpsScripts.Veeam

/-- The replacements of `VeeamStatusReplace`. -/
def veeamStatus : List (Text × Text) :=
  [("Failed".toList, "0".toList), ("Warning".toList, "1".toList), ("Success".toList, "2".toList),
    ("None".toList, "2".toList), ("idle".toList, "3".toList), ("InProgress".toList, "5".toList),
    ("Pending".toList, "6".toList), ("Pausing".toList, "7".toList),
    ("Postprocessing".toList, "8".toList), ("Resuming".toList, "9".toList),
    ("Starting".toList, "10".toList), ("Stopped".toList, "11".toList),
    ("Stopping".toList, "12".toList), ("WaitingRepository".toList, "13".toList),
    ("WaitingTape".toList, "13".toList), ("Working".toList, "13".toList)]

/-- `VeeamStatusReplace`, for the last item of the pipeline. -/
def veeamStatusReplace (item : Text) : Text := replaceAll veeamStatus item

/-- The numbers have no letter of a state. -/
theorem apart_veeamStatus : Apart veeamStatus where
  old_ne_nil := by decide
  new_ne_nil := by decide
  notMem := by decide

/-- No state is garbled by the replacement of another one. -/
theorem veeamStatusReplace_state : ∀ e ∈ veeamStatus, veeamStatusReplace e.1 = e.2 := by
  decide

/-- Every state has the number of its row, in no text a state is left, so a second run changes
nothing, and a text is changed only if it has a state. -/
theorem veeamStatusReplace_settled :
    (∀ e ∈ veeamStatus, veeamStatusReplace e.1 = e.2) ∧
      ∀ item, (∀ e ∈ veeamStatus, contains e.1 (veeamStatusReplace item) = false) ∧
        veeamStatusReplace (veeamStatusReplace item) = veeamStatusReplace item ∧
        (veeamStatusReplace item = item ↔ ∀ e ∈ veeamStatus, contains e.1 item = false) := by
  refine ⟨veeamStatusReplace_state, fun item => ?_⟩
  have hgone : ∀ e ∈ veeamStatus, contains e.1 (veeamStatusReplace item) = false := fun _ he =>
    apart_veeamStatus.contains_replaceAll item he
  exact ⟨hgone, replaceAll_eq_self apart_veeamStatus.old_ne_nil hgone,
    apart_veeamStatus.replaceAll_eq_self_iff item⟩

end OpsScripts.Veeam
