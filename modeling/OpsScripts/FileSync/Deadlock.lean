import OpsScripts.FileSync.Waiting

/-!
# Deadlock

Two scripts that poll each other become undecided together only by the start of one
while the other is undecided, and then they never part. `IPTest` is stuck as soon as
one of its variables is `Running`. Runs without these two kinds of steps leave every
waiting script a way out.
-/

namespace OpsScripts.FileSync

open Transition Statement

variable {s s' : State} {e : Event} {t u : Task}

/-- A script is undecided only if it was so before the step, or is started. -/
theorem undecided_of_step (h : WaitsFor t u) (hstep : step s e = some s')
    (hundecided : s'.Undecided t u) : s.Undecided t u ∨ e = .start t := by
  obtain ⟨hrun', hlow, htest, hloop⟩ := hundecided
  rcases running_of_step hstep hrun' with
    ⟨rfl, -, rfl⟩ | ⟨a, c, rfl, hrun, hc, -, rfl⟩ | ⟨hrun, hjob, -⟩
  · exact Or.inr rfl
  · refine Or.inl ⟨hrun, ?_⟩
    obtain ⟨first, seconds, body, hscript⟩ := h.loop
    have hbody := forward_of_bodyStart hc
    rw [hscript] at hc
    rw [State.exec_job_self] at hlow htest hloop
    rcases getElem?_waitLoop hc with
      ⟨hp, rfl⟩ | ⟨hp, rfl⟩ | ⟨hp, rfl⟩ | ⟨hp, rfl⟩ | ⟨hp, rfl⟩ | hp
    · exact ⟨by omega, by omega, by omega⟩
    · refine ⟨by omega, fun _ => ?_, by omega⟩
      by_contra hvar
      simp [Statement.exec, Job.goto, hvar] at hlow
    · exact ⟨by omega, by omega, by omega⟩
    · refine ⟨by omega, by omega, fun _ => hloop ?_⟩
      simp [Statement.exec, Job.goto, hp]
    · refine ⟨by omega, by omega, fun _ hvar => ?_⟩
      simp [Statement.exec, Job.goto, hvar, hp] at hlow
    · have hlt := position_lt_exec s.state a (hbody (h.bodyStart ▸ hp))
      omega
  · rw [hjob] at hlow htest hloop
    exact Or.inl ⟨hrun, hlow, htest, hloop⟩

/-- `ToDisk` and `SyncToDisaster` are started only while the other one is not
undecided, and `IPTest` reads only tasks that are not running. -/
def StartsDecided (s : State) (e : Event) : Prop :=
  (e = .start .toDisk → ¬ s.Undecided .syncToDisaster .toDisk) ∧
  (e = .start .syncToDisaster → ¬ s.Undecided .toDisk .syncToDisaster) ∧
  ∀ a v w, e = .run .ipTest a →
    (script .ipTest)[(s.job .ipTest).position]? = some (getScheduledTask v w) → ¬ s.Running w

instance (s : State) (e : Event) : Decidable (StartsDecided s e) :=
  inferInstanceAs (Decidable (_ ∧ _ ∧ ∀ a v w, e = .run .ipTest a →
    (script .ipTest)[(s.job .ipTest).position]? = some (getScheduledTask v w) → ¬ s.Running w))

/-- Such starts leave at most one of the two undecided. -/
theorem not_undecided_undecided (h : ReachableBy StartsDecided s) :
    ¬ (s.Undecided .toDisk .syncToDisaster ∧ s.Undecided .syncToDisaster .toDisk) := by
  refine h.invariant (I := fun s => ¬ (s.Undecided .toDisk .syncToDisaster ∧
    s.Undecided .syncToDisaster .toDisk)) (fun s hs hboth => hs .toDisk hboth.1.1)
    fun s e s' hs hg hstep hboth => ?_
  rcases undecided_of_step toDisk_waitsFor hstep hboth.1 with hdisk | hdisk
  · rcases undecided_of_step syncToDisaster_waitsFor hstep hboth.2 with hsync | hsync
    · exact hs ⟨hdisk, hsync⟩
    · exact hg.2.1 hsync hdisk
  · rcases undecided_of_step syncToDisaster_waitsFor hstep hboth.2 with hsync | hsync
    · exact hg.1 hdisk hsync
    · exact absurd (hdisk.symm.trans hsync) (by decide)

/-- Such reads leave no variable of `IPTest` at `Running`. -/
theorem ipTest_var_ne_running (h : ReachableBy StartsDecided s) (hrun : s.Running .ipTest) :
    (s.job .ipTest).var u ≠ some .running := by
  refine h.job_invariant (I := fun t j => t = .ipTest → j.var u ≠ some .running)
    (fun t _ => by simp [Job.fresh]) (fun s t c a hg _ hc hs ht => ?_) hrun rfl
  subst ht
  rcases exec_var (c := c) (s.job .ipTest) s.state a with ⟨v, w, rfl, hvar⟩ | hvar
  · rw [hvar]
    by_cases hu : u = v
    · subst hu
      have hidle := hg.2.2 a u w rfl hc
      simpa [State.Running] using hidle
    · rw [Function.update_of_ne hu]
      exact hs rfl
  · rw [hvar]
    exact hs rfl

/-- In every run with such starts and reads, every waiting script can leave its loop,
and the two that poll each other never wait for each other. -/
theorem noWaitForever_of_startsDecided (h : ReachableBy StartsDecided s) : s.NoWaitForever := by
  have hundecided := not_undecided_undecided h
  constructor
  · intro t hwait
    cases t with
    | toDisk =>
      exact canLeave_of_not_undecided toDisk_waitsFor syncToDisaster_waitsFor hwait hundecided
    | syncToDisaster =>
      exact canLeave_of_not_undecided syncToDisaster_waitsFor toDisk_waitsFor hwait
        fun hx => hundecided hx.symm
    | regionToDisaster => exact regionToDisaster_canLeave hwait hundecided
    | disk30days => exact absurd hwait.2.2 (Nat.not_lt_zero _)
    | ipTest =>
      exact ipTest_canLeave hwait fun u _ => ipTest_var_ne_running h hwait.1
  · intro hboth
    obtain ⟨hdisk, hsync, hreadDisk, hreadSync⟩ := hboth
    apply hundecided
    have hlow := hdisk.2
    have hlow' := hsync.2
    simp only [loopStart, bodyStart] at hlow hlow'
    constructor
    · exact ⟨hdisk.1, hlow.2, by omega, fun _ => by simp [hreadDisk]⟩
    · exact ⟨hsync.1, hlow'.2, by omega, fun _ => by simp [hreadSync]⟩

/-- `toDisaster.ps1` waits for `CopyToDisk.ps1`, which has read the state of the idle
task before. -/
theorem syncToDisaster_canLeave : ∃ s : State, s.Waiting .syncToDisaster ∧ s.NoWaitForever := by
  obtain ⟨s, hreach, hwait⟩ : ∃ s, ReachableBy StartsDecided s ∧ s.Waiting .syncToDisaster :=
    exists_reachableBy (enter .toDisk 3 ++ enter .syncToDisaster 3) (by decide +kernel) (by decide)
  exact ⟨s, hwait, noWaitForever_of_startsDecided hreach⟩

/-! ## The trapped scripts -/

/-- An undecided script stays so while the task it polls is running. -/
theorem undecided_exec (h : WaitsFor t u) (hundecided : s.Undecided t u) (hrun : s.Running u)
    {c : Statement} (a : Bool) (hc : (script t)[(s.job t).position]? = some c) :
    (s.exec t c a).Undecided t u := by
  obtain ⟨hrunt, hlow, htest, hloop⟩ := hundecided
  refine ⟨hrunt, ?_⟩
  rw [State.exec_job_self]
  have htask := fun v w hx => task_of_getScheduledTask (t := t) (v := v) (w := w) (hc.trans hx)
  obtain ⟨first, seconds, body, hscript⟩ := h.loop
  rw [hscript] at hc
  rcases getElem?_waitLoop hc with
    ⟨hp, rfl⟩ | ⟨hp, rfl⟩ | ⟨hp, rfl⟩ | ⟨hp, rfl⟩ | ⟨hp, rfl⟩ | hp
  · have hread : s.state first = .running := by
      rcases htask u first rfl with rfl | rfl
      · exact hrun
      · exact hrunt
    simp [Statement.exec, hp, hread]
  · simp [Statement.exec, Job.goto, hp, htest hp]
  · have hread : s.state u = .running := hrun
    simp [Statement.exec, hp, hread]
  · simp [Statement.exec, Job.goto, hp, hloop (by omega)]
  · simp [Statement.exec, Job.goto, hloop (by omega)]
  · omega

/-- A script in its loop neither ends nor restarts the computer. -/
theorem advance_of_undecided (h : WaitsFor t u) (hundecided : s.Undecided t u) (a : Bool) :
    ∃ c, (script t)[(s.job t).position]? = some c ∧ s.advance t a = s.exec t c a := by
  obtain ⟨-, hlow, -⟩ := hundecided
  obtain ⟨⟨first, h₀⟩, h₁, h₂, ⟨seconds, h₃⟩, h₄⟩ := h.statements
  unfold State.advance
  obtain hp | hp | hp | hp | hp : (s.job t).position = 0 ∨ (s.job t).position = 1 ∨
      (s.job t).position = 2 ∨ (s.job t).position = 3 ∨ (s.job t).position = 4 := by omega
  · exact ⟨_, hp ▸ h₀, by simp [hp, h₀]⟩
  · exact ⟨_, hp ▸ h₁, by simp [hp, h₁]⟩
  · exact ⟨_, hp ▸ h₂, by simp [hp, h₂]⟩
  · exact ⟨_, hp ▸ h₃, by simp [hp, h₃]⟩
  · exact ⟨_, hp ▸ h₄, by simp [hp, h₄]⟩

theorem advance_of_waiting_ipTest (hwait : s.Waiting .ipTest) (a : Bool) :
    ∃ c, (script .ipTest)[(s.job .ipTest).position]? = some c ∧
      s.advance .ipTest a = s.exec .ipTest c a := by
  obtain ⟨-, hlow, hhigh⟩ := hwait
  simp only [loopStart] at hlow
  simp only [bodyStart] at hhigh
  unfold State.advance
  by_cases hp : (s.job .ipTest).position = 3
  · rw [hp]
    exact ⟨_, rfl, rfl⟩
  · obtain hp' : (s.job .ipTest).position = 4 := by omega
    rw [hp']
    exact ⟨_, rfl, rfl⟩

/-- What other tasks do leaves a running task alone, unless the computer is restarted. -/
theorem alone_of_continues (hcont : Continues s e) (hstep : step s e = some s')
    (hrun : s.Running t) (hne : ∀ a, e ≠ .run t a) :
    (s'.Running t ∧ s'.job t = s.job t) ∨ ∀ u, ¬ s'.Running u := by
  rcases hcont with ⟨u, a, rfl⟩ | ⟨u, rfl⟩
  · obtain ⟨-, rfl⟩ : s.Running u ∧ s.advance u a = s' := by simpa [step] using hstep
    have htu : t ≠ u := fun hx => hne a (hx ▸ rfl)
    rcases s.advance_cases (t := u) a with hf | hr | ⟨c, -, -, hx⟩
    · rw [hf]
      exact Or.inl ⟨by simpa [State.Running, State.finish, htu] using hrun, rfl⟩
    · exact Or.inr fun w => hr ▸ State.not_running_restart
    · rw [hx]
      exact Or.inl ⟨hrun, State.exec_job_of_ne c a htu⟩
  · obtain ⟨hidle, rfl⟩ : ¬ s.Running u ∧
        { s with state := Function.update s.state u .ready } = s' := by simpa [step] using hstep
    have htu : t ≠ u := fun hx => hidle (hx ▸ hrun)
    exact Or.inl ⟨by simpa [State.Running, htu] using hrun, rfl⟩

/-- An undecided script stays so, unless the computer is restarted. -/
theorem undecided_of_continues (h : WaitsFor t u) (hundecided : s.Undecided t u)
    (hrun : s.Running u) (hcont : Continues s e) (hstep : step s e = some s') :
    s'.Undecided t u ∨ ∀ w, ¬ s'.Running w := by
  by_cases hself : ∃ a, e = .run t a
  · obtain ⟨a, rfl⟩ := hself
    obtain ⟨c, hc, hadvance⟩ := advance_of_undecided h hundecided a
    obtain ⟨-, rfl⟩ : s.Running t ∧ s.advance t a = s' := by simpa [step] using hstep
    rw [hadvance]
    exact Or.inl (undecided_exec h hundecided hrun a hc)
  · have hne : ∀ a, e ≠ .run t a := fun a hx => hself ⟨a, hx⟩
    rcases alone_of_continues hcont hstep hundecided.1 hne with ⟨hrunt, hjob⟩ | hnone
    · refine Or.inl ⟨hrunt, ?_⟩
      rw [hjob]
      exact hundecided.2
    · exact Or.inr hnone

/-- The waiting scripts that no continuation lets go. -/
def State.Trapped (s : State) : Task → Prop
  | .toDisk | .syncToDisaster =>
    s.Undecided .toDisk .syncToDisaster ∧ s.Undecided .syncToDisaster .toDisk
  | .regionToDisaster =>
    s.Undecided .toDisk .syncToDisaster ∧ s.Undecided .syncToDisaster .toDisk ∧
      s.Undecided .regionToDisaster .toDisk
  | .disk30days => False
  | .ipTest => s.Waiting .ipTest ∧ ∃ u ∈ [Task.toDisk, .syncToDisaster, .disk30days],
    (s.job .ipTest).var u = some .running

/-- `IPTest` with a variable at `Running` goes round its loop. -/
theorem trapped_ipTest_exec {c : Statement} (a : Bool) (h : s.Trapped .ipTest)
    (hc : (script .ipTest)[(s.job .ipTest).position]? = some c) :
    (s.exec .ipTest c a).Trapped .ipTest := by
  obtain ⟨⟨hrun, hlow, hhigh⟩, u, hu, hvar⟩ := h
  simp only [loopStart] at hlow
  simp only [bodyStart] at hhigh
  have hpos : ((s.exec .ipTest c a).job .ipTest).position = 4 ∨
      ((s.exec .ipTest c a).job .ipTest).position = 3 := by
    rw [State.exec_job_self]
    rcases getElem?_ipTest hc with ⟨hp, -⟩ | ⟨hp, -⟩ | ⟨hp, -⟩ | ⟨hp, rfl⟩ | ⟨hp, rfl⟩ | hp
    · omega
    · omega
    · omega
    · exact Or.inl (by simp [Statement.exec, Job.goto, hp])
    · have hsum := mt sum_eq_three_iff.mp fun hall => hall u hu hvar
      exact Or.inr (by simp only [Statement.exec, Job.goto, if_neg hsum])
    · omega
  have hkeep : ((s.exec .ipTest c a).job .ipTest).var = (s.job .ipTest).var := by
    rw [State.exec_job_self]
    rcases exec_var (c := c) (s.job .ipTest) s.state a with ⟨v, w, rfl, -⟩ | hkeep
    · rcases getElem?_ipTest hc with ⟨hp, -⟩ | ⟨hp, -⟩ | ⟨hp, -⟩ | ⟨-, hx⟩ | ⟨-, hx⟩ | hp
      · omega
      · omega
      · omega
      · exact absurd hx (by simp)
      · exact absurd hx (by simp)
      · omega
    · exact hkeep
  refine ⟨⟨hrun, ?_, ?_⟩, u, hu, hkeep ▸ hvar⟩
  · simp only [loopStart]
    omega
  · simp only [bodyStart]
    omega

/-- A trapped script stays trapped, unless the computer is restarted. -/
theorem trapped_of_continues (h : s.Trapped t) (hcont : Continues s e)
    (hstep : step s e = some s') : s'.Trapped t ∨ ∀ u, ¬ s'.Running u := by
  have hpair : s.Undecided .toDisk .syncToDisaster ∧ s.Undecided .syncToDisaster .toDisk →
      (s'.Undecided .toDisk .syncToDisaster ∧ s'.Undecided .syncToDisaster .toDisk) ∨
        ∀ u, ¬ s'.Running u := by
    intro hboth
    rcases undecided_of_continues toDisk_waitsFor hboth.1 hboth.2.1 hcont hstep with hdisk | hnone
    · rcases undecided_of_continues syncToDisaster_waitsFor hboth.2 hboth.1.1 hcont hstep with
        hsync | hnone
      · exact Or.inl ⟨hdisk, hsync⟩
      · exact Or.inr hnone
    · exact Or.inr hnone
  cases t with
  | toDisk => exact hpair h
  | syncToDisaster => exact hpair h
  | regionToDisaster =>
    obtain ⟨hdisk, hsync, hregion⟩ := h
    rcases hpair ⟨hdisk, hsync⟩ with hboth | hnone
    · rcases undecided_of_continues regionToDisaster_waitsFor hregion hdisk.1 hcont hstep with
        hregion' | hnone
      · exact Or.inl ⟨hboth.1, hboth.2, hregion'⟩
      · exact Or.inr hnone
    · exact Or.inr hnone
  | disk30days => exact h.elim
  | ipTest =>
    by_cases hself : ∃ a, e = .run .ipTest a
    · obtain ⟨a, rfl⟩ := hself
      obtain ⟨hrun, rfl⟩ : s.Running .ipTest ∧ s.advance .ipTest a = s' := by
        simpa [step] using hstep
      obtain ⟨c, hc, hadvance⟩ := advance_of_waiting_ipTest h.1 a
      exact Or.inl (hadvance ▸ trapped_ipTest_exec a h hc)
    · obtain ⟨hwait, u, hu, hvar⟩ := h
      have hne : ∀ a, e ≠ .run .ipTest a := fun a hx => hself ⟨a, hx⟩
      rcases alone_of_continues hcont hstep hwait.1 hne with ⟨hrun, hjob⟩ | hnone
      · refine Or.inl ⟨⟨hrun, ?_⟩, u, hu, hjob ▸ hvar⟩
        rw [hjob]
        exact hwait.2
      · exact Or.inr hnone

/-- No continuation gets a trapped script into its body. -/
theorem not_canLeave_of_trapped (h : s.Trapped t) : ¬ s.CanLeave t := by
  intro hleave
  obtain ⟨s₁, s₂, a, hsteps, hwait, hstep, hbody⟩ := hleave
  have hcont : ∀ s, Continues s (.run t a) := fun s => Or.inl ⟨t, a, rfl⟩
  have hinv : ∀ s s' : State, Steps step Continues s s' →
      (s.Trapped t ∨ ∀ u, ¬ s.Running u) → s'.Trapped t ∨ ∀ u, ¬ s'.Running u := by
    intro s s' hsteps
    refine hsteps.invariant (I := fun s => s.Trapped t ∨ ∀ u, ¬ s.Running u)
      fun s e s' hs hg hse => ?_
    rcases hs with htrapped | hnone
    · exact trapped_of_continues htrapped hg hse
    · refine Or.inr fun u hu => ?_
      rcases running_of_step hse hu with ⟨rfl, -⟩ | ⟨-, -, -, hrun, -⟩ | ⟨hrun, -⟩
      · rcases hg with ⟨_, _, hx⟩ | ⟨_, hx⟩ <;> exact absurd hx (by simp)
      · exact hnone u hrun
      · exact hnone u hrun
  rcases hinv s s₂ (hsteps.append (Steps.single (hcont s₁) hstep)) (Or.inl h) with
    htrapped | hnone
  · have hpos := hbody.2
    cases t with
    | toDisk => exact absurd htrapped.1.2.1 (Nat.not_lt.mpr hpos)
    | syncToDisaster => exact absurd htrapped.2.2.1 (Nat.not_lt.mpr hpos)
    | regionToDisaster => exact absurd htrapped.2.2.2.1 (Nat.not_lt.mpr hpos)
    | disk30days => exact htrapped
    | ipTest => exact absurd htrapped.1.2.2 (Nat.not_lt.mpr hpos)
  · exact hnone t hbody.1

/-- A waiting script can leave exactly if it is not trapped. -/
theorem canLeave_iff (hwait : s.Waiting t) : s.CanLeave t ↔ ¬ s.Trapped t := by
  refine ⟨fun h htrapped => not_canLeave_of_trapped htrapped h, fun h => ?_⟩
  cases t with
  | toDisk => exact canLeave_of_not_undecided toDisk_waitsFor syncToDisaster_waitsFor hwait h
  | syncToDisaster =>
    exact canLeave_of_not_undecided syncToDisaster_waitsFor toDisk_waitsFor hwait
      fun hx => h hx.symm
  | regionToDisaster =>
    by_cases hregion : s.Undecided .regionToDisaster .toDisk
    · exact regionToDisaster_canLeave hwait fun hx => h ⟨hx.1, hx.2, hregion⟩
    · exact (leaves_of_decided regionToDisaster_waitsFor hwait hregion).canLeave
  | disk30days => exact absurd hwait.2.2 (Nat.not_lt_zero _)
  | ipTest => exact ipTest_canLeave hwait fun u hu hvar => h ⟨hwait, u, hu, hvar⟩

/-- `ToDisk` is started, then `SyncToDisaster` before `ToDisk` has polled it. -/
theorem toDisk_syncToDisaster_deadlock : ∃ s : State, Reachable s ∧
    s.WaitForEachOther .toDisk .syncToDisaster ∧
    ¬ s.CanLeave .toDisk ∧ ¬ s.CanLeave .syncToDisaster := by
  obtain ⟨s, hreach, hboth, hundecided⟩ := exists_reachable
    (p := fun s => s.WaitForEachOther .toDisk .syncToDisaster ∧
      s.Undecided .toDisk .syncToDisaster ∧ s.Undecided .syncToDisaster .toDisk)
    (enter .toDisk 1 ++ enter .syncToDisaster 3 ++ List.replicate 2 (.run .toDisk true))
    (by decide)
  exact ⟨s, hreach, hboth, not_canLeave_of_trapped (t := .toDisk) hundecided,
    not_canLeave_of_trapped (t := .syncToDisaster) hundecided⟩

/-- `IPTest.ps1`, started while `SyncToDisaster` runs, is in its loop after that task has
come to its end. -/
theorem ipTest_trapped : ∃ s : State, Reachable s ∧ s.Waiting .ipTest ∧
    (∀ t, s.Running t → t = .ipTest) ∧ ¬ s.CanLeave .ipTest := by
  obtain ⟨s, hreach, hwait, hidle, hvar⟩ := exists_reachable
    (p := fun s => s.Waiting .ipTest ∧ (∀ t, s.Running t → t = .ipTest) ∧
      (s.job .ipTest).var .syncToDisaster = some .running)
    (enter .syncToDisaster 0 ++ enter .ipTest 3 ++
      List.replicate 27 (.run .syncToDisaster true)) (by decide)
  exact ⟨s, hreach, hwait, hidle, not_canLeave_of_trapped (t := .ipTest)
    ⟨hwait, .syncToDisaster, by decide, hvar⟩⟩

/-- Not every reachable state leaves the waiting scripts a way out. -/
theorem not_noWaitForever : ¬ ∀ s, Reachable s → s.NoWaitForever := by
  intro h
  obtain ⟨s, hreach, hboth, hdisk, -⟩ := toDisk_syncToDisaster_deadlock
  exact hdisk ((h s hreach).canLeave .toDisk hboth.1)

end OpsScripts.FileSync
