import OpsScripts.FileSync.Exclusion

/-!
# Leaving the wait loops

A waiting script can leave when the task it polls comes to rest. Two things stand
against it: `ToDisk` and `SyncToDisaster`, each started before the other had made up
its mind, read each other as `Running` until one of them is stopped, and `IPTest` never
reads again what it found before its loop.
-/

namespace OpsScripts.FileSync

open Transition Statement

variable {s s' : State} {e : Event} {t u : Task}

/-- The first position of the wait loop. -/
def loopStart : Task → Nat
  | .ipTest => 3
  | _ => 2

/-- The script of `t` is inside its wait loop. -/
def State.Waiting (s : State) (t : Task) : Prop :=
  s.Running t ∧ loopStart t ≤ (s.job t).position ∧ (s.job t).position < bodyStart t

instance : Decidable (s.Waiting t) := inferInstanceAs (Decidable (_ ∧ _ ∧ _))

/-- The scripts go on, and the tasks that are over come to be `Ready`. That the scheduler ends a
task at its time limit is no continuation. -/
def Continues (_ : State) (e : Event) : Prop :=
  (∃ t a, e = .run t a) ∨ ∃ t, e = .settle t .ready

/-- There is a continuation in which `t` leaves its wait loop. -/
def State.CanLeave (s : State) (t : Task) : Prop :=
  ∃ s₁ s₂ a, Steps step Continues s s₁ ∧ s₁.Waiting t ∧ step s₁ (.run t a) = some s₂ ∧
    s₂.InBody t

/-- Both scripts are in their wait loops, and the last each has read is that the other
is `Running`. -/
def State.WaitForEachOther (s : State) (t u : Task) : Prop :=
  s.Waiting t ∧ s.Waiting u ∧
    (s.job t).var u = some .running ∧ (s.job u).var t = some .running

instance : Decidable (s.WaitForEachOther t u) := inferInstanceAs (Decidable (_ ∧ _ ∧ _ ∧ _))

/-- A script that waits can leave its loop, and the two that poll each other do not both wait. -/
structure State.NoWaitForever (s : State) : Prop where
  canLeave : ∀ t, s.Waiting t → s.CanLeave t
  not_waitForEachOther : ¬ s.WaitForEachOther .toDisk .syncToDisaster

/-- The script of `t`, which polls `u`, has not read anything yet that lets it pass. -/
def State.Undecided (s : State) (t u : Task) : Prop :=
  s.Running t ∧ (s.job t).position < 5 ∧
    ((s.job t).position = 1 → (s.job t).var u = some .running) ∧
    (3 ≤ (s.job t).position → (s.job t).var u ≠ some .ready)

instance : Decidable (s.Undecided t u) := inferInstanceAs (Decidable (_ ∧ _ ∧ _ ∧ _))

/-- The script of `t` begins with the wait loop that polls `u`. -/
structure WaitsFor (t u : Task) : Prop where
  loop : ∃ first seconds body, script t = waitLoop u first seconds ++ body
  bodyStart : bodyStart t = 5
  loopStart : loopStart t = 2
  ne : t ≠ u

theorem toDisk_waitsFor : WaitsFor .toDisk .syncToDisaster :=
  ⟨⟨_, _, _, rfl⟩, rfl, rfl, by decide⟩

theorem syncToDisaster_waitsFor : WaitsFor .syncToDisaster .toDisk :=
  ⟨⟨_, _, _, rfl⟩, rfl, rfl, by decide⟩

theorem regionToDisaster_waitsFor : WaitsFor .regionToDisaster .toDisk :=
  ⟨⟨_, _, _, rfl⟩, rfl, rfl, by decide⟩

/-- Nothing but its own run changes a task. -/
def Frame (t : Task) (s s' : State) : Prop :=
  ∀ u, u ≠ t → s'.state u = s.state u ∧ s'.job u = s.job u

theorem Frame.trans {s'' : State} (h : Frame t s s') (h' : Frame t s' s'') : Frame t s s'' :=
  fun u hu => ⟨(h' u hu).1.trans (h u hu).1, (h' u hu).2.trans (h u hu).2⟩

/-- One statement other than `exit` and `Restart-Computer`, as a step. -/
theorem step_exec {c : Statement} (hrun : s.Running t)
    (hc : (script t)[(s.job t).position]? = some c) (hexit : c ≠ .exit) :
    step s (.run t false) = some (s.exec t c false) := by
  have hadvance : s.advance t false = s.exec t c false := by
    unfold State.advance
    rw [hc]
    cases c <;> simp_all
  simp only [step, hrun, if_true, hadvance]

theorem continues_run : Continues s (.run t false) := Or.inl ⟨t, false, rfl⟩

theorem frame_exec (c : Statement) (a : Bool) : Frame t s (s.exec t c a) :=
  fun _ hu => ⟨rfl, State.exec_job_of_ne c a hu⟩

/-- A script in its body runs to its end, after which its task is `Ready`. -/
theorem ready_of_inBody (h : s.InBody t) :
    ∃ s', Steps step Continues s s' ∧ s'.state t = .ready ∧ Frame t s s' := by
  generalize hn : (script t).length - (s.job t).position = n
  induction n using Nat.strong_induction_on generalizing s with
  | _ n ih =>
    obtain ⟨hrun, hpos⟩ := h
    have hfinish : step s (.run t false) = some (s.finish t) →
        ∃ s', Steps step Continues s s' ∧ s'.state t = .ready ∧ Frame t s s' := by
      intro hstep
      refine ⟨s.finish t, Steps.single continues_run hstep, Function.update_self .., ?_⟩
      exact fun u hu => ⟨Function.update_of_ne hu .., rfl⟩
    cases hc : (script t)[(s.job t).position]? with
    | none =>
      apply hfinish
      simp only [step, hrun, if_true, State.advance, hc]
    | some c =>
      by_cases hexit : c = .exit
      · apply hfinish
        subst hexit
        simp only [step, hrun, if_true, State.advance, hc]
      · have hstep := step_exec hrun hc hexit
        have hlt := position_lt_exec s.state false (forward_of_bodyStart hc hpos)
        have hle := (List.getElem?_eq_some_iff.mp hc).1
        have hbody : (s.exec t c false).InBody t :=
          ⟨hrun, by rw [State.exec_job_self]; omega⟩
        have hdecr : (script t).length - ((s.exec t c false).job t).position < n := by
          rw [State.exec_job_self]
          omega
        obtain ⟨s', hsteps, hready, hframe⟩ := ih _ hdecr hbody rfl
        exact ⟨s', (Steps.single continues_run hstep).append hsteps, hready,
          (frame_exec c false).trans hframe⟩

/-! ## The wait loop when the polled task is at rest -/

/-- The script of `t` leaves its wait loop by its own statements. -/
def Leaves (s : State) (t : Task) : Prop :=
  ∃ s₁ s₂, Steps step Continues s s₁ ∧ s₁.Waiting t ∧ step s₁ (.run t false) = some s₂ ∧
    s₂.InBody t ∧ Frame t s s₂

theorem Leaves.canLeave (h : Leaves s t) : s.CanLeave t := by
  obtain ⟨s₁, s₂, hsteps, hwait, hstep, hbody, -⟩ := h
  exact ⟨s₁, s₂, false, hsteps, hwait, hstep, hbody⟩

/-- A script that leaves its loop gets into its body. -/
theorem Leaves.inBody (h : Leaves s t) :
    ∃ s', Steps step Continues s s' ∧ s'.InBody t ∧ Frame t s s' := by
  obtain ⟨s₁, s₂, hsteps, -, hstep, hbody, hframe⟩ := h
  exact ⟨s₂, hsteps.append (Steps.single continues_run hstep), hbody, hframe⟩

/-- One statement before leaving. -/
theorem Leaves.of_exec {c : Statement} (hrun : s.Running t)
    (hc : (script t)[(s.job t).position]? = some c) (hexit : c ≠ .exit)
    (h : Leaves (s.exec t c false) t) : Leaves s t := by
  obtain ⟨s₁, s₂, hsteps, hwait, hstep, hbody, hframe⟩ := h
  have hfirst : Steps step Continues s (s.exec t c false) :=
    Steps.single continues_run (step_exec hrun hc hexit)
  exact ⟨s₁, s₂, hfirst.append hsteps, hwait, hstep, hbody, (frame_exec c false).trans hframe⟩

/-- The statements of a wait loop. -/
theorem WaitsFor.statements (h : WaitsFor t u) :
    (∃ first, (script t)[0]? = some (getScheduledTask u first)) ∧
    (script t)[1]? = some (ifRunning u 5) ∧
    (script t)[2]? = some (getScheduledTask u u) ∧
    (∃ seconds, (script t)[3]? = some (startSleep seconds)) ∧
    (script t)[4]? = some (untilReady u 2) := by
  obtain ⟨first, seconds, body, hscript⟩ := h.loop
  simp [hscript, waitLoop]

/-- The loop ends at its test once `Ready` has been read. -/
theorem leaves_of_test (h : WaitsFor t u) (hrun : s.Running t) (hpos : (s.job t).position = 4)
    (hvar : (s.job t).var u = some .ready) : Leaves s t := by
  have hc : (script t)[(s.job t).position]? = some (untilReady u 2) := hpos ▸ h.statements.2.2.2.2
  have hwait : s.Waiting t := ⟨hrun, by rw [h.loopStart]; omega, by rw [h.bodyStart]; omega⟩
  refine ⟨s, _, Relation.ReflTransGen.refl, hwait, step_exec hrun hc (by simp), ⟨hrun, ?_⟩,
    frame_exec _ _⟩
  simp [Statement.exec, Job.goto, hvar, hpos, h.bodyStart]

/-- The sleep before the test. -/
theorem leaves_of_sleep (h : WaitsFor t u) (hrun : s.Running t) (hpos : (s.job t).position = 3)
    (hvar : (s.job t).var u = some .ready) : Leaves s t := by
  obtain ⟨seconds, hc⟩ := h.statements.2.2.2.1
  rw [← hpos] at hc
  apply Leaves.of_exec hrun hc (by simp)
  apply leaves_of_test h (show (s.exec t _ false).Running t from hrun)
  · simp [Statement.exec, Job.goto, hpos]
  · simpa [Statement.exec, Job.goto] using hvar

/-- The read of a task that is at rest. -/
theorem leaves_of_read (h : WaitsFor t u) (hrun : s.Running t) (hpos : (s.job t).position = 2)
    (hready : s.state u = .ready) : Leaves s t := by
  have hc : (script t)[(s.job t).position]? = some (getScheduledTask u u) :=
    hpos ▸ h.statements.2.2.1
  apply Leaves.of_exec hrun hc (by simp)
  apply leaves_of_sleep h (show (s.exec t _ false).Running t from hrun)
  · simp [Statement.exec, hpos]
  · simp [Statement.exec, hready]

/-- Inside the loop, a script leaves if the polled task is at rest. -/
theorem leaves_of_ready (h : WaitsFor t u) (hwait : s.Waiting t) (hready : s.state u = .ready) :
    Leaves s t := by
  obtain ⟨hrun, hlow, hhigh⟩ := hwait
  rw [h.loopStart] at hlow
  rw [h.bodyStart] at hhigh
  have hfour : ∀ s : State, s.Running t → s.state u = .ready → (s.job t).position = 4 →
      Leaves s t := by
    intro s hrun hready hpos
    by_cases hvar : (s.job t).var u = some .ready
    · exact leaves_of_test h hrun hpos hvar
    · have hc : (script t)[(s.job t).position]? = some (untilReady u 2) :=
        hpos ▸ h.statements.2.2.2.2
      apply Leaves.of_exec hrun hc (by simp)
      apply leaves_of_read h (show (s.exec t _ false).Running t from hrun) _ hready
      simp [Statement.exec, Job.goto, hvar]
  obtain hpos | hpos | hpos : (s.job t).position = 2 ∨ (s.job t).position = 3 ∨
      (s.job t).position = 4 := by omega
  · exact leaves_of_read h hrun hpos hready
  · obtain ⟨seconds, hc⟩ := h.statements.2.2.2.1
    rw [← hpos] at hc
    apply Leaves.of_exec hrun hc (by simp)
    apply hfour (s.exec t _ false) hrun hready
    simp [Statement.exec, Job.goto, hpos]
  · exact hfour s hrun hready hpos

/-- Inside the loop, a script that has decided leaves. -/
theorem leaves_of_decided (h : WaitsFor t u) (hwait : s.Waiting t) (hdecided : ¬ s.Undecided t u) :
    Leaves s t := by
  obtain ⟨hrun, hlow, hhigh⟩ := hwait
  rw [h.loopStart] at hlow
  rw [h.bodyStart] at hhigh
  by_cases hvar : (s.job t).var u = some .ready
  · obtain hpos | hpos | hpos : (s.job t).position = 2 ∨ (s.job t).position = 3 ∨
        (s.job t).position = 4 := by omega
    · exact absurd ⟨hrun, by omega, by omega, by omega⟩ hdecided
    · exact leaves_of_sleep h hrun hpos hvar
    · exact leaves_of_test h hrun hpos hvar
  · exact absurd ⟨hrun, hhigh, by omega, fun _ => hvar⟩ hdecided

/-- A script comes into its body without a change to the other tasks. -/
def Passes (s : State) (t : Task) : Prop :=
  ∃ s', Steps step Continues s s' ∧ s'.InBody t ∧ Frame t s s'

/-- One statement before passing. -/
theorem Passes.of_exec {c : Statement} (hrun : s.Running t)
    (hc : (script t)[(s.job t).position]? = some c) (hexit : c ≠ .exit)
    (h : Passes (s.exec t c false) t) : Passes s t := by
  obtain ⟨s', hsteps, hbody, hframe⟩ := h
  have hfirst : Steps step Continues s (s.exec t c false) :=
    Steps.single continues_run (step_exec hrun hc hexit)
  exact ⟨s', hfirst.append hsteps, hbody, (frame_exec c false).trans hframe⟩

/-- The test in front of the loop. -/
theorem passes_of_test (h : WaitsFor t u) (hrun : s.Running t) (hpos : (s.job t).position = 1)
    (hpass : s.state u = .ready ∨ (s.job t).var u ≠ some .running) : Passes s t := by
  have hc : (script t)[(s.job t).position]? = some (ifRunning u 5) := hpos ▸ h.statements.2.1
  apply Passes.of_exec hrun hc (by simp)
  by_cases hvar : (s.job t).var u = some .running
  · have hpos' : ((s.exec t (ifRunning u 5) false).job t).position = 2 := by
      simp [Statement.exec, Job.goto, hvar, hpos]
    have hready := hpass.resolve_right fun hx => hx hvar
    exact (leaves_of_read (s := s.exec t _ false) h hrun hpos' hready).inBody
  · have hbody : (s.exec t (ifRunning u 5) false).InBody t := by
      refine ⟨hrun, ?_⟩
      simp [Statement.exec, Job.goto, hvar, h.bodyStart]
    exact ⟨_, Relation.ReflTransGen.refl, hbody, fun _ _ => ⟨rfl, rfl⟩⟩

/-- A script passes if the polled task is at rest, or if it has decided already. -/
theorem passes_of_ready (h : WaitsFor t u) (hrun : s.Running t)
    (hpass : s.state u = .ready ∨ ¬ s.Undecided t u) : Passes s t := by
  by_cases hbody : 5 ≤ (s.job t).position
  · refine ⟨s, Relation.ReflTransGen.refl, ⟨hrun, ?_⟩, fun _ _ => ⟨rfl, rfl⟩⟩
    rw [h.bodyStart]
    exact hbody
  by_cases hloop : 2 ≤ (s.job t).position
  · have hwait : s.Waiting t := ⟨hrun, by rw [h.loopStart]; omega, by rw [h.bodyStart]; omega⟩
    rcases hpass with hready | hdecided
    · exact (leaves_of_ready h hwait hready).inBody
    · exact (leaves_of_decided h hwait hdecided).inBody
  by_cases htest : (s.job t).position = 1
  · apply passes_of_test h hrun htest
    rcases hpass with hready | hdecided
    · exact Or.inl hready
    · refine Or.inr fun hvar => hdecided ⟨hrun, by omega, fun _ => hvar, by omega⟩
  · have hfirst : (s.job t).position = 0 := by omega
    have hready : s.state u = .ready := by
      rcases hpass with hready | hdecided
      · exact hready
      · exact absurd ⟨hrun, by omega, by omega, by omega⟩ hdecided
    obtain ⟨first, hc⟩ := h.statements.1
    rw [← hfirst] at hc
    apply Passes.of_exec hrun hc (by simp)
    apply passes_of_test h (show (s.exec t _ false).Running t from hrun)
    · simp [Statement.exec, hfirst]
    · exact Or.inl hready

/-- A task at rest, or one whose script can pass, comes to be `Ready`. -/
theorem becomes_ready (hpass : s.Running t → Passes s t) :
    ∃ s', Steps step Continues s s' ∧ s'.state t = .ready ∧ Frame t s s' := by
  by_cases hrun : s.Running t
  · obtain ⟨s₁, hsteps, hbody, hframe⟩ := hpass hrun
    obtain ⟨s₂, hsteps', hready, hframe'⟩ := ready_of_inBody hbody
    exact ⟨s₂, hsteps.append hsteps', hready, hframe.trans hframe'⟩
  · have hstep : step s (.settle t .ready) =
        some { s with state := Function.update s.state t .ready } := by
      simp [step, hrun]
    refine ⟨_, Steps.single (Or.inr ⟨t, rfl⟩) hstep, Function.update_self .., ?_⟩
    exact fun u hu => ⟨Function.update_of_ne hu .., rfl⟩

/-- What a run of other tasks keeps. -/
theorem Frame.waiting (h : Frame u s s') (hne : t ≠ u) (hwait : s.Waiting t) : s'.Waiting t := by
  obtain ⟨hstate, hjob⟩ := h t hne
  simpa only [State.Waiting, State.Running, hstate, hjob] using hwait

/-- A waiting script can leave if the polled task can come to rest. -/
theorem canLeave_of_becomes_ready (h : WaitsFor t u) (hwait : s.Waiting t)
    (hready : ∃ s', Steps step Continues s s' ∧ s'.state u = .ready ∧ Frame u s s') :
    s.CanLeave t := by
  obtain ⟨s', hsteps, hready, hframe⟩ := hready
  obtain ⟨s₁, s₂, hsteps', hwait', hstep, hbody, -⟩ :=
    leaves_of_ready h (hframe.waiting h.ne hwait) hready
  exact ⟨s₁, s₂, false, hsteps.append hsteps', hwait', hstep, hbody⟩

/-- Of two scripts that poll each other, a waiting one can leave unless both are undecided. -/
theorem canLeave_of_not_undecided {first second : Task} (h : WaitsFor first second)
    (h' : WaitsFor second first) (hwait : s.Waiting first)
    (hundecided : ¬ (s.Undecided first second ∧ s.Undecided second first)) :
    s.CanLeave first := by
  by_cases hdecided : s.Undecided first second
  · apply canLeave_of_becomes_ready h hwait
    exact becomes_ready fun hrun =>
      passes_of_ready h' hrun (Or.inr fun hx => hundecided ⟨hdecided, hx⟩)
  · exact (leaves_of_decided h hwait hdecided).canLeave

/-- `RegionToDisaster` can leave under the same condition on the other two. -/
theorem regionToDisaster_canLeave (hwait : s.Waiting .regionToDisaster)
    (hundecided : ¬ (s.Undecided .toDisk .syncToDisaster ∧ s.Undecided .syncToDisaster .toDisk)) :
    s.CanLeave .regionToDisaster := by
  by_cases hdecided : s.Undecided .toDisk .syncToDisaster
  · -- `SyncToDisaster` comes to rest first, then `ToDisk`
    obtain ⟨s₁, hsteps, hready, hframe⟩ := becomes_ready (s := s) (t := .syncToDisaster)
      fun hrun => passes_of_ready syncToDisaster_waitsFor hrun
        (Or.inr fun hx => hundecided ⟨hdecided, hx⟩)
    have hwait₁ := hframe.waiting (by decide) hwait
    obtain ⟨s₂, s₃, a, hsteps', hleave⟩ :=
      canLeave_of_becomes_ready regionToDisaster_waitsFor hwait₁
      (becomes_ready fun hrun => passes_of_ready toDisk_waitsFor hrun (Or.inl hready))
    exact ⟨s₂, s₃, a, hsteps.append hsteps', hleave⟩
  · apply canLeave_of_becomes_ready regionToDisaster_waitsFor hwait
    exact becomes_ready fun hrun => passes_of_ready toDisk_waitsFor hrun (Or.inr hdecided)

/-- `IPTest` can leave if none of its variables is `Running`. -/
theorem ipTest_canLeave (hwait : s.Waiting .ipTest)
    (hvars : ∀ u ∈ [Task.toDisk, .syncToDisaster, .disk30days],
      (s.job .ipTest).var u ≠ some .running) : s.CanLeave .ipTest := by
  have htest : ∀ s : State, s.Running .ipTest → (s.job .ipTest).position = 4 →
      (∀ u ∈ [Task.toDisk, .syncToDisaster, .disk30days],
        (s.job .ipTest).var u ≠ some .running) → s.CanLeave .ipTest := by
    intro s hrun hpos hvars
    have hc : (script .ipTest)[(s.job .ipTest).position]? =
        some (untilSum [.toDisk, .syncToDisaster, .disk30days] 3 3) := by
      rw [hpos]
      rfl
    have hwait : s.Waiting .ipTest := ⟨hrun, by rw [hpos]; decide, by rw [hpos]; decide⟩
    refine ⟨s, _, false, Relation.ReflTransGen.refl, hwait, step_exec hrun hc (by simp), hrun, ?_⟩
    rw [State.exec_job_self]
    simp only [Statement.exec, Job.goto, if_pos (sum_eq_three_iff.mpr hvars), hpos]
    decide
  obtain ⟨hrun, hlow, hhigh⟩ := hwait
  simp only [loopStart] at hlow
  simp only [bodyStart] at hhigh
  by_cases hpos : (s.job .ipTest).position = 3
  · have hc : (script .ipTest)[(s.job .ipTest).position]? = some (startSleep 300) := by
      rw [hpos]
      rfl
    have hnext := htest (s.exec .ipTest (startSleep 300) false) hrun
      (by simp [Statement.exec, Job.goto, hpos])
      (by rw [State.exec_job_self]; exact hvars)
    obtain ⟨s₁, s₂, a, hsteps, hleave⟩ := hnext
    exact ⟨s₁, s₂, a, (Steps.single continues_run (step_exec hrun hc (by simp))).append hsteps,
      hleave⟩
  · exact htest s hrun (by omega) hvars

end OpsScripts.FileSync
