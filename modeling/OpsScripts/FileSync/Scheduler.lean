import OpsScripts.Core.Transition
import OpsScripts.FileSync.Scripts
import Mathlib.Algebra.GroupWithZero.Nat
import Mathlib.Logic.Function.Basic

/-!
# The scheduler and the running scripts

The scheduler marks a task `Running` before the first statement of its script and
runs no second instance of it. A step is a start, one statement of a running
script, a change of an idle task, or the end of a script by the execution time
limit. What a script asks the file system, the calendar or the network is answered
by the event.
-/

namespace OpsScripts.FileSync

open Transition Statement

/-- A running script: its position, its variables, and whether its last command for
the adapter `Backup` has enabled it. -/
structure Job where
  position : Nat
  var : Task → Option TaskState
  connected : Bool

/-- A script before its first statement. -/
def Job.fresh : Job := ⟨0, fun _ => none, false⟩

/-- The task states, the scripts of the running tasks, and the adapter `Backup`. -/
structure State where
  state : Task → TaskState
  job : Task → Job
  link : Bool

/-- What can happen next. -/
inductive Event
  | start (t : Task)
  | run (t : Task) (answer : Bool)
  | settle (t : Task) (state : TaskState)
  | stop (t : Task)
  deriving DecidableEq

/-- The task of `t` is in the state `Running`. -/
def State.Running (s : State) (t : Task) : Prop := s.state t = .running

instance (s : State) (t : Task) : Decidable (s.Running t) := inferInstanceAs (Decidable (_ = _))

/-- Go on at another position. -/
def Job.goto (j : Job) (p : Nat) : Job := { j with position := p }

/-- The effect of a statement on its script. -/
def Statement.exec (c : Statement) (states : Task → TaskState) (answer : Bool) (j : Job) : Job :=
  match c with
  | getScheduledTask var task =>
    { j with position := j.position + 1, var := Function.update j.var var (some (states task)) }
  | ifRunning var target =>
    j.goto (if j.var var = some .running then j.position + 1 else target)
  | untilReady var target =>
    j.goto (if j.var var = some .ready then j.position + 1 else target)
  | untilSum vars total target =>
    j.goto (if (vars.map fun v => if j.var v = some .running then 0 else 1).sum = total
      then j.position + 1 else target)
  | ifElse target => j.goto (if answer then j.position + 1 else target)
  | enableNetAdapter .backup => { j with position := j.position + 1, connected := true }
  | disableNetAdapter .backup => { j with position := j.position + 1, connected := false }
  | _ => j.goto (j.position + 1)

/-- The effect of a statement on the adapter `Backup`. -/
def Statement.switch (c : Statement) (link : Bool) : Bool :=
  match c with
  | enableNetAdapter .backup => true
  | disableNetAdapter .backup => false
  | _ => link

namespace State

variable (s : State) (t : Task)

/-- The scheduler starts a task. -/
def begin : State :=
  { s with state := Function.update s.state t .running, job := Function.update s.job t .fresh }

/-- A script is over. -/
def finish : State := { s with state := Function.update s.state t .ready }

/-- `Restart-Computer` ends every script. -/
def restart : State :=
  { s with state := fun u => if s.state u = .running then .ready else s.state u }

/-- One statement of a script that goes on. -/
def exec (c : Statement) (answer : Bool) : State :=
  { s with
    job := Function.update s.job t (c.exec s.state answer (s.job t))
    link := c.switch s.link }

/-- The next statement of the script of a running task. -/
def advance (answer : Bool) : State :=
  match (script t)[(s.job t).position]? with
  | none => s.finish t
  | some .exit => s.finish t
  | some c => if c = .restartComputer ∧ answer then s.restart else s.exec t c answer

end State

/-- One event. -/
def step (s : State) : Event → Option State
  | .start t => if s.Running t then none else some (s.begin t)
  | .run t answer => if s.Running t then some (s.advance t answer) else none
  | .settle t st =>
    if s.Running t ∨ st = .running then none
    else some { s with state := Function.update s.state t st }
  | .stop t => if s.Running t then some (s.finish t) else none

/-- No task is running yet. -/
def Initial (s : State) : Prop := ∀ t, ¬ s.Running t

/-- The states of the runs whose steps meet a guard. -/
def ReachableBy (guard : State → Event → Prop) (s : State) : Prop :=
  ∃ s₀, Initial s₀ ∧ Steps step guard s₀ s

/-- The states of all runs. -/
def Reachable (s : State) : Prop := ReachableBy (fun _ _ => True) s

/-- All tasks are ready. -/
def idle : State := ⟨fun _ => .ready, fun _ => .fresh, false⟩

/-- The start of a task and the first statements of its script. -/
def enter (t : Task) (statements : Nat) : List Event :=
  .start t :: List.replicate statements (.run t true)

variable {s s' : State} {e : Event} {t u : Task}

/-- What a list of events leads to from the idle state is reachable, whatever can be
checked of it. -/
theorem exists_reachableBy {guard : State → Event → Prop} {p : State → Prop} [DecidablePred p]
    (es : List Event) (hg : Along step guard idle es)
    (h : (run step idle es).any fun s => decide (p s)) : ∃ s, ReachableBy guard s ∧ p s := by
  obtain ⟨s, hs, hp⟩ := (Option.any_eq_true _ _).mp h
  refine ⟨s, ⟨idle, fun t ht => ?_, steps_run hg hs⟩, of_decide_eq_true hp⟩
  exact absurd ht (by simp [State.Running, idle])

/-- Events without a guard. -/
theorem exists_reachable {p : State → Prop} [DecidablePred p] (es : List Event)
    (h : (run step idle es).any fun s => decide (p s)) : ∃ s, Reachable s ∧ p s :=
  exists_reachableBy es (along_of_forall (fun _ _ => trivial) es) h

/-- A guarded run is a run. -/
theorem ReachableBy.reachable {guard : State → Event → Prop} (h : ReachableBy guard s) :
    Reachable s := by
  obtain ⟨s₀, hinit, hsteps⟩ := h
  exact ⟨s₀, hinit, hsteps.weaken fun _ _ _ => trivial⟩

/-- What holds while no task runs and is kept by every step holds in all reachable states. -/
theorem ReachableBy.invariant {guard : State → Event → Prop} {I : State → Prop}
    (hinit : ∀ s, Initial s → I s)
    (hstep : ∀ s e s', I s → guard s e → step s e = some s' → I s')
    (h : ReachableBy guard s) : I s := by
  obtain ⟨s₀, h₀, hsteps⟩ := h
  exact hsteps.invariant hstep (hinit s₀ h₀)

/-! ## What a step does -/

@[simp] theorem State.begin_job_self : (s.begin t).job t = .fresh := Function.update_self ..

theorem State.begin_running_of_ne (h : u ≠ t) : (s.begin t).Running u ↔ s.Running u := by
  simp only [State.Running, State.begin, Function.update_of_ne h]

theorem State.begin_job_of_ne (h : u ≠ t) : (s.begin t).job u = s.job u := by
  simp only [State.begin, Function.update_of_ne h]

@[simp] theorem State.exec_job_self (c : Statement) (a : Bool) :
    (s.exec t c a).job t = c.exec s.state a (s.job t) := Function.update_self ..

theorem State.exec_job_of_ne (c : Statement) (a : Bool) (h : u ≠ t) :
    (s.exec t c a).job u = s.job u := Function.update_of_ne h ..

@[simp] theorem State.finish_running_self : ¬ (s.finish t).Running t := by
  simp [State.Running, State.finish]

theorem State.not_running_restart : ¬ s.restart.Running t := by
  simp only [State.Running, State.restart]
  split <;> simp_all

/-- A script either ends, ends with all others, or goes on with one statement. -/
theorem State.advance_cases (a : Bool) : s.advance t a = s.finish t ∨ s.advance t a = s.restart ∨
    ∃ c, (script t)[(s.job t).position]? = some c ∧ c ≠ .exit ∧ s.advance t a = s.exec t c a := by
  unfold State.advance
  split
  · exact Or.inl rfl
  · exact Or.inl rfl
  · next c hexit hc =>
    by_cases hr : c = .restartComputer ∧ a = true
    · exact Or.inr (Or.inl (if_pos hr))
    · exact Or.inr (Or.inr ⟨c, hc, hexit, if_neg hr⟩)

/-- A task that runs after a step was started by it, has executed a statement, or was
left alone. -/
theorem running_of_step (h : step s e = some s') (hrun : s'.Running t) :
    (e = .start t ∧ ¬ s.Running t ∧ s' = s.begin t) ∨
    (∃ a c, e = .run t a ∧ s.Running t ∧ (script t)[(s.job t).position]? = some c ∧
      c ≠ .exit ∧ s' = s.exec t c a) ∨
    (s.Running t ∧ s'.job t = s.job t ∧ e ≠ .start t ∧ ∀ a, e ≠ .run t a) := by
  cases e with
  | start u =>
    obtain ⟨hidle, rfl⟩ : ¬ s.Running u ∧ s.begin u = s' := by simpa [step] using h
    by_cases hu : t = u
    · subst hu
      exact Or.inl ⟨rfl, hidle, rfl⟩
    · have hstart : Event.start u ≠ .start t := fun hx => hu (Event.start.inj hx).symm
      exact Or.inr (Or.inr ⟨(State.begin_running_of_ne hu).mp hrun, State.begin_job_of_ne hu,
        hstart, fun a => by simp⟩)
  | run u a =>
    obtain ⟨hu, rfl⟩ : s.Running u ∧ s.advance u a = s' := by simpa [step] using h
    by_cases htu : t = u
    · subst htu
      rcases s.advance_cases (t := t) a with hf | hr | ⟨c, hc, hexit, hx⟩
      · exact absurd (hf ▸ hrun) State.finish_running_self
      · exact absurd (hr ▸ hrun) State.not_running_restart
      · exact Or.inr (Or.inl ⟨a, c, rfl, hu, hc, hexit, hx⟩)
    · have hne : ∀ b, Event.run u a ≠ .run t b := fun b hx => htu (Event.run.inj hx).1.symm
      refine Or.inr (Or.inr ?_)
      rcases s.advance_cases (t := u) a with hf | hr | ⟨c, -, -, hx⟩
      · rw [hf] at hrun ⊢
        have : s.Running t := by simpa [State.Running, State.finish, htu] using hrun
        exact ⟨this, rfl, by simp, hne⟩
      · exact absurd (hr ▸ hrun) State.not_running_restart
      · rw [hx] at hrun ⊢
        exact ⟨hrun, State.exec_job_of_ne c a htu, by simp, hne⟩
  | settle u st =>
    obtain ⟨⟨hu, hst⟩, rfl⟩ : (¬ s.Running u ∧ st ≠ .running) ∧
        { s with state := Function.update s.state u st } = s' := by simpa [step] using h
    have htu : t ≠ u := by
      rintro rfl
      exact hst (by simpa [State.Running] using hrun)
    have : s.Running t := by simpa [State.Running, htu] using hrun
    exact Or.inr (Or.inr ⟨this, rfl, by simp, by simp⟩)
  | stop u =>
    obtain ⟨hu, rfl⟩ : s.Running u ∧ s.finish u = s' := by simpa [step] using h
    have htu : t ≠ u := by
      rintro rfl
      exact State.finish_running_self hrun
    have : s.Running t := by simpa [State.Running, State.finish, htu] using hrun
    exact Or.inr (Or.inr ⟨this, rfl, by simp, by simp⟩)

/-- A property of single scripts that holds at their start and is kept by every
statement holds for all running scripts. -/
theorem ReachableBy.job_invariant {guard : State → Event → Prop} {I : Task → Job → Prop}
    (hfresh : ∀ t, I t .fresh)
    (hexec : ∀ s t c a, guard s (.run t a) → s.Running t →
      (script t)[(s.job t).position]? = some c → I t (s.job t) →
        I t (c.exec s.state a (s.job t)))
    (h : ReachableBy guard s) (hrun : s.Running t) : I t (s.job t) := by
  refine h.invariant (I := fun s => ∀ t, s.Running t → I t (s.job t))
    (fun s hs t ht => absurd ht (hs t)) (fun s e s' hs hg hstep t ht => ?_) t hrun
  rcases running_of_step hstep ht with ⟨-, -, rfl⟩ | ⟨a, c, rfl, hrun, hc, -, rfl⟩ | ⟨hrun, hjob, -⟩
  · rw [State.begin_job_self]
    exact hfresh t
  · rw [State.exec_job_self]
    exact hexec s t c a hg hrun hc (hs t hrun)
  · rw [hjob]
    exact hs t hrun

/-! ## What a statement does -/

/-- A forward statement moves on. -/
theorem position_lt_exec {c : Statement} {j : Job} (states : Task → TaskState) (a : Bool)
    (h : c.Forward j.position) : j.position < (c.exec states a j).position := by
  cases c with
  | enableNetAdapter name => cases name <;> exact Nat.lt_succ_self _
  | disableNetAdapter name => cases name <;> exact Nat.lt_succ_self _
  | ifRunning _ _ | untilReady _ _ | untilSum _ _ _ | ifElse _ =>
    simp only [Statement.Forward] at h
    simp only [Statement.exec, Job.goto]
    split <;> omega
  | _ => exact Nat.lt_succ_self _

/-- Only a read of a task state changes a variable. -/
theorem exec_var {c : Statement} (j : Job) (states : Task → TaskState) (a : Bool) :
    (∃ v w, c = getScheduledTask v w ∧
      (c.exec states a j).var = Function.update j.var v (some (states w))) ∨
    (c.exec states a j).var = j.var := by
  cases c with
  | getScheduledTask v w => exact Or.inl ⟨v, w, rfl, rfl⟩
  | enableNetAdapter name => cases name <;> exact Or.inr rfl
  | disableNetAdapter name => cases name <;> exact Or.inr rfl
  | _ => exact Or.inr rfl

/-- A forward statement keeps the variables. -/
theorem exec_var_of_forward {c : Statement} {j : Job} (states : Task → TaskState) (a : Bool)
    (h : c.Forward j.position) : (c.exec states a j).var = j.var := by
  rcases exec_var (c := c) j states a with ⟨v, w, rfl, -⟩ | hvar
  · exact h.elim
  · exact hvar

/-- Only `Enable-NetAdapter` connects a script. -/
theorem connected_exec {c : Statement} {j : Job} {states : Task → TaskState} {a : Bool}
    (h : (c.exec states a j).connected = true) :
    c = enableNetAdapter .backup ∨ (c ≠ disableNetAdapter .backup ∧ j.connected = true) := by
  cases c with
  | enableNetAdapter name =>
    cases name with
    | backup => exact Or.inl rfl
    | backupsql => exact Or.inr ⟨by simp, h⟩
  | disableNetAdapter name =>
    cases name with
    | backup => exact absurd h (by simp [Statement.exec])
    | backupsql => exact Or.inr ⟨by simp, h⟩
  | _ => exact Or.inr ⟨by simp, h⟩

end OpsScripts.FileSync
