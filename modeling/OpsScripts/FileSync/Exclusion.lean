import OpsScripts.FileSync.Scheduler

/-!
# Mutual exclusion of `ToDisk` and `SyncToDisaster`

A script is granted the way against another task once the last state it has read of
that task is not `Running`. A grant can only be won while the other task is idle, and
that task has to read afresh when it is started again, so two scripts that poll each
other never hold grants against each other. No script passes its wait loop without
the grants against all the tasks it polls.
-/

namespace OpsScripts.FileSync

open Transition Statement

variable {s s' : State} {e : Event} {t u : Task}

/-- The script of `t` is in its body, behind its wait loop. -/
def State.InBody (s : State) (t : Task) : Prop :=
  s.Running t ∧ bodyStart t ≤ (s.job t).position

instance : Decidable (s.InBody t) := inferInstanceAs (Decidable (_ ∧ _))

/-- The last state that the script of `t` has read of `u` is not `Running`. -/
def State.Granted (s : State) (t u : Task) : Prop :=
  s.Running t ∧ (Polls t u → ∃ st, (s.job t).var u = some st ∧ st ≠ .running)

/-! ## Grants -/

/-- A script fills a variable with the state of its task or with the state of the task
of the script itself. -/
theorem task_of_getScheduledTask {p : Nat} {v w : Task}
    (h : (script t)[p]? = some (getScheduledTask v w)) : w = v ∨ w = t := by
  have hall : ∀ t v w, getScheduledTask v w ∈ script t → w = v ∨ w = t := by decide
  exact hall t v w (List.mem_of_getElem? h)

/-- A statement wins a grant only against an idle task. -/
theorem granted_exec {c : Statement} {a : Bool} (hc : (script t)[(s.job t).position]? = some c)
    (hpolls : Polls t u) (h : (s.exec t c a).Granted t u) : s.Granted t u ∨ ¬ s.Running u := by
  obtain ⟨hrun, hvar⟩ := h
  obtain ⟨st, hst, hne⟩ := hvar hpolls
  rw [State.exec_job_self] at hst
  rcases exec_var (c := c) (s.job t) s.state a with ⟨v, w, rfl, hread⟩ | hkeep
  · rw [hread] at hst
    by_cases hv : u = v
    · subst hv
      obtain rfl : s.state w = st := by simpa using hst
      rcases task_of_getScheduledTask hc with rfl | rfl
      · exact Or.inr hne
      · exact absurd hrun hne
    · rw [Function.update_of_ne hv] at hst
      exact Or.inl ⟨hrun, fun _ => ⟨st, hst, hne⟩⟩
  · rw [hkeep] at hst
    exact Or.inl ⟨hrun, fun _ => ⟨st, hst, hne⟩⟩

/-- A task of the pairs `S` is started only while those others run that it polls. -/
def StartsApart (S : Task → Task → Prop) (s : State) (e : Event) : Prop :=
  ∀ t u, e = .start t → u ≠ t → S t u → s.Running u → Polls t u

/-- The grants among the pairs `S` follow the handshake rule. -/
def handshake (S : Task → Task → Prop) : Handshake step (StartsApart S) Task where
  active := State.Running
  granted s t u := S t u ∧ s.Granted t u
  active_of_granted h := h.2.1
  granted_step := by
    intro s e s' t u hg hstep hne hnew
    obtain ⟨hS, hgranted⟩ := hnew
    rcases running_of_step hstep hgranted.1 with
      ⟨rfl, hidle, rfl⟩ | ⟨a, c, rfl, hrun, hc, -, rfl⟩ | ⟨hrun, hjob, -⟩
    · refine Or.inr fun hu => ?_
      rw [State.begin_running_of_ne hne.symm] at hu
      obtain ⟨st, hst, -⟩ := hgranted.2 (hg t u rfl hne.symm hS hu)
      simp [Job.fresh] at hst
    · by_cases hpolls : Polls t u
      · rcases granted_exec hc hpolls hgranted with hold | hidle
        · exact Or.inl ⟨hS, hold⟩
        · exact Or.inr hidle
      · exact Or.inl ⟨hS, hrun, fun h => absurd h hpolls⟩
    · exact Or.inl ⟨hS, hrun, fun h => hjob ▸ hgranted.2 h⟩

/-- In every run with such starts, no two tasks of `S` hold grants against each other. -/
theorem not_granted_granted {S : Task → Task → Prop} (h : ReachableBy (StartsApart S) s)
    (hne : t ≠ u) (htu : S t u) (hut : S u t) : ¬ (s.Granted t u ∧ s.Granted u t) := by
  obtain ⟨s₀, hinit, hsteps⟩ := h
  have hexcl := (handshake S).exclusive_steps hsteps
    fun p q _ hpq => hinit p hpq.1.2.1
  intro hboth
  exact hexcl t u hne ⟨⟨htu, hboth.1⟩, ⟨hut, hboth.2⟩⟩

/-! ## The wait loops -/

/-- In a script that waits for `u`: the variable is set after the first statement, and
is not `Running` behind the loop. -/
def Waited (u : Task) (j : Job) : Prop :=
  (1 ≤ j.position → j.var u ≠ none) ∧ (5 ≤ j.position → j.var u ≠ some .running)

/-- In `IPTest.ps1`: the same for its three variables. -/
def Tested (j : Job) : Prop :=
  (1 ≤ j.position → j.var .syncToDisaster ≠ none) ∧
  (2 ≤ j.position → j.var .toDisk ≠ none) ∧
  (3 ≤ j.position → j.var .disk30days ≠ none) ∧
  (5 ≤ j.position → ∀ u ∈ [Task.toDisk, .syncToDisaster, .disk30days],
    j.var u ≠ some .running)

/-- What the variables of a script hold at each position. -/
def Sound : Task → Job → Prop
  | .toDisk => Waited .syncToDisaster
  | .syncToDisaster => Waited .toDisk
  | .regionToDisaster => Waited .toDisk
  | .disk30days => fun _ => True
  | .ipTest => Tested

/-- A wait loop keeps its variable. -/
theorem waited_exec {first : Task} {seconds : Nat} {body : List Statement} {c : Statement}
    {j : Job} (states : Task → TaskState) (a : Bool)
    (hc : (waitLoop u first seconds ++ body)[j.position]? = some c)
    (hbody : 5 ≤ j.position → c.Forward j.position) (h : Waited u j) :
    Waited u (c.exec states a j) := by
  rcases getElem?_waitLoop hc with
    ⟨hp, rfl⟩ | ⟨hp, rfl⟩ | ⟨hp, rfl⟩ | ⟨hp, rfl⟩ | ⟨hp, rfl⟩ | hp
  · simp [Waited, Statement.exec, hp]
  · have hset := h.1 (by omega)
    by_cases hrunning : j.var u = some .running <;>
      simp [Waited, Statement.exec, Job.goto, hp, hrunning, hset]
  · simp [Waited, Statement.exec, hp]
  · have hset := h.1 (by omega)
    simp [Waited, Statement.exec, Job.goto, hp, hset]
  · have hset := h.1 (by omega)
    by_cases hready : j.var u = some .ready <;>
      simp [Waited, Statement.exec, Job.goto, hp, hready, hset]
  · have hvar := exec_var_of_forward states a (hbody hp)
    unfold Waited
    rw [hvar]
    exact ⟨fun _ => h.1 (by omega), fun _ => h.2 hp⟩

/-- The statements of `IPTest.ps1` before its body. -/
theorem getElem?_ipTest {p : Nat} {c : Statement} (h : ipTest[p]? = some c) :
    (p = 0 ∧ c = getScheduledTask .syncToDisaster .syncToDisaster) ∨
    (p = 1 ∧ c = getScheduledTask .toDisk .toDisk) ∨
    (p = 2 ∧ c = getScheduledTask .disk30days .disk30days) ∨
    (p = 3 ∧ c = startSleep 300) ∨
    (p = 4 ∧ c = untilSum [.toDisk, .syncToDisaster, .disk30days] 3 3) ∨ 5 ≤ p := by
  rcases p with _ | _ | _ | _ | _ | p <;> simp_all [ipTest]

/-- The sum of `IPTest.ps1` is complete when none of its variables is `Running`. -/
theorem sum_eq_three_iff {var : Task → Option TaskState} {v w x : Task} :
    ([v, w, x].map fun y => if var y = some .running then 0 else 1).sum = 3 ↔
      ∀ y ∈ [v, w, x], var y ≠ some .running := by
  by_cases hv : var v = some .running <;> by_cases hw : var w = some .running <;>
    by_cases hx : var x = some .running <;> simp [hv, hw, hx]

/-- The loop of `IPTest.ps1` keeps its variables. -/
theorem tested_exec {c : Statement} {j : Job} (states : Task → TaskState) (a : Bool)
    (hc : ipTest[j.position]? = some c) (hbody : 5 ≤ j.position → c.Forward j.position)
    (h : Tested j) : Tested (c.exec states a j) := by
  obtain ⟨hsync, hdisk, hmonth, htested⟩ := h
  rcases getElem?_ipTest hc with
    ⟨hp, rfl⟩ | ⟨hp, rfl⟩ | ⟨hp, rfl⟩ | ⟨hp, rfl⟩ | ⟨hp, rfl⟩ | hp
  · simp [Tested, Statement.exec, hp]
  · have hs := hsync (by omega)
    simp [Tested, Statement.exec, hp, hs]
  · have hs := hsync (by omega)
    have hd := hdisk (by omega)
    simp [Tested, Statement.exec, hp, hs, hd]
  · have hs := hsync (by omega)
    have hd := hdisk (by omega)
    have hm := hmonth (by omega)
    simp [Tested, Statement.exec, Job.goto, hp, hs, hd, hm]
  · have hs := hsync (by omega)
    have hd := hdisk (by omega)
    have hm := hmonth (by omega)
    refine ⟨fun _ => hs, fun _ => hd, fun _ => hm, fun h5 => ?_⟩
    simp only [Statement.exec, Job.goto, hp] at h5 ⊢
    split at h5
    · next hsum => exact sum_eq_three_iff.mp hsum
    · omega
  · have hvar := exec_var_of_forward states a (hbody hp)
    unfold Tested
    rw [hvar]
    exact ⟨fun _ => hsync (by omega), fun _ => hdisk (by omega), fun _ => hmonth (by omega),
      fun _ => htested hp⟩

/-- Every statement keeps the variables of its script sound. -/
theorem sound_exec {c : Statement} {j : Job} (states : Task → TaskState) (a : Bool)
    (hc : (script t)[j.position]? = some c) (h : Sound t j) : Sound t (c.exec states a j) := by
  have hbody := fun hp => forward_of_bodyStart hc hp
  cases t with
  | toDisk => exact waited_exec states a hc hbody h
  | syncToDisaster => exact waited_exec states a hc hbody h
  | regionToDisaster => exact waited_exec states a hc hbody h
  | disk30days => trivial
  | ipTest => exact tested_exec states a hc hbody h

/-- The variables of a running script are sound. -/
theorem sound_of_running (h : Reachable s) (hrun : s.Running t) : Sound t (s.job t) := by
  refine h.job_invariant (fun t => ?_) (fun s t c a _ _ hc hs => sound_exec s.state a hc hs) hrun
  cases t <;> simp [Sound, Waited, Tested, Job.fresh]

/-- The body of a script starts with all grants. -/
theorem granted_of_inBody (h : Reachable s) (hbody : s.InBody t) : s.Granted t u := by
  obtain ⟨hrun, hpos⟩ := hbody
  have hsound := sound_of_running h hrun
  refine ⟨hrun, fun hpolls => ?_⟩
  suffices hvar : (s.job t).var u ≠ none ∧ (s.job t).var u ≠ some .running by
    obtain ⟨st, hst⟩ := Option.ne_none_iff_exists'.mp hvar.1
    exact ⟨st, hst, fun hx => hvar.2 (hx ▸ hst)⟩
  have hpolled : ∀ t u, Polls t u →
      (t = .toDisk ∧ u = .syncToDisaster) ∨ (t = .syncToDisaster ∧ u = .toDisk) ∨
      (t = .regionToDisaster ∧ u = .toDisk) ∨ (t = .ipTest ∧ u = .syncToDisaster) ∨
      (t = .ipTest ∧ u = .toDisk) ∨ (t = .ipTest ∧ u = .disk30days) := by decide
  rcases hpolled t u hpolls with ⟨rfl, rfl⟩ | ⟨rfl, rfl⟩ | ⟨rfl, rfl⟩ | ⟨rfl, rfl⟩ |
    ⟨rfl, rfl⟩ | ⟨rfl, rfl⟩
  · exact ⟨hsound.1 (Nat.le_trans (by decide) hpos), hsound.2 hpos⟩
  · exact ⟨hsound.1 (Nat.le_trans (by decide) hpos), hsound.2 hpos⟩
  · exact ⟨hsound.1 (Nat.le_trans (by decide) hpos), hsound.2 hpos⟩
  · exact ⟨hsound.1 (Nat.le_trans (by decide) hpos), hsound.2.2.2 hpos _ (by decide)⟩
  · exact ⟨hsound.2.1 (Nat.le_trans (by decide) hpos), hsound.2.2.2 hpos _ (by decide)⟩
  · exact ⟨hsound.2.2.1 (Nat.le_trans (by decide) hpos), hsound.2.2.2 hpos _ (by decide)⟩

/-! ## Exclusion -/

/-- Two scripts that poll each other are never both in their bodies. -/
theorem not_inBody_inBody {S : Task → Task → Prop} (h : ReachableBy (StartsApart S) s)
    (hne : t ≠ u) (htu : S t u) (hut : S u t) : ¬ (s.InBody t ∧ s.InBody u) := by
  intro hboth
  exact not_granted_granted h hne htu hut
    ⟨granted_of_inBody h.reachable hboth.1, granted_of_inBody h.reachable hboth.2⟩

/-- In no reachable state are `CopyToDisk.ps1` and `toDisaster.ps1` both behind their
wait loops. -/
theorem toDisk_syncToDisaster_exclusive (h : Reachable s) :
    ¬ (s.InBody .toDisk ∧ s.InBody .syncToDisaster) := by
  obtain ⟨s₀, hinit, hsteps⟩ := h
  have hapart : ReachableBy (StartsApart Polls) s :=
    ⟨s₀, hinit, hsteps.weaken fun _ _ _ t u _ _ hpolls _ => hpolls⟩
  exact not_inBody_inBody hapart (by decide) (by decide) (by decide)

/-- `toDisaster.ps1` copies while `CopyToDisk.ps1`, started after it, waits. -/
theorem toDisk_waits_for_syncToDisaster : ∃ s : State, s.InBody .syncToDisaster ∧
    s.Running .toDisk ∧ ¬ (s.InBody .toDisk ∧ s.InBody .syncToDisaster) := by
  obtain ⟨s, hreach, hbody, hrun⟩ := exists_reachable
    (p := fun s => s.InBody .syncToDisaster ∧ s.Running .toDisk)
    (enter .syncToDisaster 9 ++ enter .toDisk 4) (by decide)
  exact ⟨s, hbody, hrun, toDisk_syncToDisaster_exclusive hreach⟩

end OpsScripts.FileSync
