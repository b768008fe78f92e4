import OpsScripts.FileSync.Exclusion

/-!
# The adapter `Backup`

All five scripts enable and disable the same adapter. The wait loops keep apart what
they poll and nothing else: of two scripts one can cut off the other unless each
polls the other. When every task is started only while the running ones are among
those it polls, no copy loses its link.
-/

namespace OpsScripts.FileSync

open Transition Statement

variable {s s' : State} {e : Event} {t u : Task}

/-- The script of `t` is between one of its `Enable-NetAdapter` and the matching
`Disable-NetAdapter`. -/
def State.InNetworkPhase (s : State) (t : Task) : Prop :=
  s.Running t ∧ (s.job t).connected = true

/-- The next statement of `t` disables the adapter in the network phase of `u`. -/
def State.Disconnects (s : State) (t u : Task) : Prop :=
  s.Running t ∧ (script t)[(s.job t).position]? = some (disableNetAdapter .backup) ∧
    s.InNetworkPhase u

instance : Decidable (s.InNetworkPhase t) := inferInstanceAs (Decidable (_ ∧ _))

instance : Decidable (s.Disconnects t u) := inferInstanceAs (Decidable (_ ∧ _ ∧ _ ∧ _))

/-- No script disables the adapter in the network phase of another one, and the
adapter is enabled in every network phase. -/
structure State.NetworkSafe (s : State) : Prop where
  not_disconnects : ∀ t u, t ≠ u → ¬ s.Disconnects t u
  link : ∀ t, s.InNetworkPhase t → s.link = true

/-- A connected script is in its body. -/
theorem inBody_of_inNetworkPhase (h : Reachable s) (hphase : s.InNetworkPhase t) :
    s.InBody t := by
  obtain ⟨hrun, hconnected⟩ := hphase
  refine ⟨hrun, h.job_invariant (I := fun t j => j.connected = true → bodyStart t ≤ j.position)
    (fun t hf => by simp [Job.fresh] at hf) (fun s t c a _ _ hc hs hx => ?_) hrun hconnected⟩
  have hbody : bodyStart t ≤ (s.job t).position := by
    rcases connected_exec hx with rfl | ⟨-, hold⟩
    · exact bodyStart_le_of_enable hc
    · exact hs hold
  have hlt := position_lt_exec s.state a (forward_of_bodyStart hc hbody)
  omega

/-- A script that is about to disable the adapter is in its body. -/
theorem inBody_of_disable (hrun : s.Running t)
    (hc : (script t)[(s.job t).position]? = some (disableNetAdapter .backup)) : s.InBody t := by
  have hall : ∀ t, ∀ p, (hlt : p < (script t).length) →
      (script t)[p] = disableNetAdapter .backup → bodyStart t ≤ p := by decide
  obtain ⟨hlt, hstatement⟩ := List.getElem?_eq_some_iff.mp hc
  exact ⟨hrun, hall t _ hlt hstatement⟩

/-- Scripts of which at most one is ever in its body do not disconnect each other. -/
theorem not_disconnects_of_exclusive (h : Reachable s) (hexcl : ¬ (s.InBody t ∧ s.InBody u)) :
    ¬ s.Disconnects t u := by
  intro hd
  obtain ⟨hrun, hc, hphase⟩ := hd
  exact hexcl ⟨inBody_of_disable hrun hc, inBody_of_inNetworkPhase h hphase⟩

/-- The adapter is disabled only by the statement of a running script. -/
theorem link_of_step (h : step s e = some s') (hlink : s.link = true) : s'.link = true ∨
    ∃ t a, e = .run t a ∧ s.Running t ∧
      (script t)[(s.job t).position]? = some (disableNetAdapter .backup) := by
  cases e with
  | run t a =>
    obtain ⟨hrun, rfl⟩ : s.Running t ∧ s.advance t a = s' := by simpa [step] using h
    rcases s.advance_cases (t := t) a with hf | hr | ⟨c, hc, -, hx⟩
    · exact Or.inl (hf ▸ hlink)
    · exact Or.inl (hr ▸ hlink)
    · by_cases hdisable : c = disableNetAdapter .backup
      · exact Or.inr ⟨t, a, rfl, hrun, hdisable ▸ hc⟩
      · refine Or.inl (hx ▸ ?_)
        cases c with
        | enableNetAdapter name => cases name <;> simp [State.exec, Statement.switch, hlink]
        | disableNetAdapter name => cases name <;> simp_all [State.exec, Statement.switch]
        | _ => exact hlink
  | start t =>
    obtain ⟨-, rfl⟩ : ¬ s.Running t ∧ s.begin t = s' := by simpa [step] using h
    exact Or.inl hlink
  | settle t st =>
    obtain ⟨-, rfl⟩ : (¬ s.Running t ∧ st ≠ .running) ∧
        { s with state := Function.update s.state t st } = s' := by simpa [step] using h
    exact Or.inl hlink
  | stop t =>
    obtain ⟨-, rfl⟩ : s.Running t ∧ s.finish t = s' := by simpa [step] using h
    exact Or.inl hlink

/-- A step that disconnects nobody keeps the adapter enabled in every network phase. -/
theorem link_step (hs : s.NetworkSafe) (h : step s e = some s') (hphase : s'.InNetworkPhase u) :
    s'.link = true := by
  obtain ⟨hrun', hconnected⟩ := hphase
  rcases running_of_step h hrun' with
    ⟨rfl, -, rfl⟩ | ⟨a, c, rfl, hrun, hc, -, rfl⟩ | ⟨hrun, hjob, -, hne⟩
  · simp [Job.fresh] at hconnected
  · rw [State.exec_job_self] at hconnected
    rcases connected_exec hconnected with rfl | ⟨hc', hold⟩
    · rfl
    · apply (link_of_step h (hs.link u ⟨hrun, hold⟩)).resolve_right
      intro hdisable
      obtain ⟨t, b, he, -, hstatement⟩ := hdisable
      obtain ⟨rfl, rfl⟩ := Event.run.inj he
      exact hc' (Option.some.inj (hc.symm.trans hstatement))
  · have hold : s.InNetworkPhase u := ⟨hrun, hjob ▸ hconnected⟩
    apply (link_of_step h (hs.link u hold)).resolve_right
    intro hdisable
    obtain ⟨t, b, rfl, hrunt, hstatement⟩ := hdisable
    have htu : t ≠ u := fun hx => hne b (hx ▸ rfl)
    exact hs.not_disconnects t u htu ⟨hrunt, hstatement, hold⟩

/-- Every task is started only while the running tasks are among those it polls. -/
abbrev StartsWithPolled : State → Event → Prop := StartsApart fun _ _ => True

instance (S : Task → Task → Prop) [∀ t u, Decidable (S t u)] (s : State) (e : Event) :
    Decidable (StartsApart S s e) :=
  inferInstanceAs (Decidable (∀ t u, e = .start t → u ≠ t → S t u → s.Running u → Polls t u))

/-- Starts of this kind keep all scripts from disconnecting each other. -/
theorem not_disconnects_of_startsWithPolled (h : ReachableBy StartsWithPolled s) (hne : t ≠ u) :
    ¬ s.Disconnects t u :=
  not_disconnects_of_exclusive h.reachable (not_inBody_inBody h hne trivial trivial)

/-- In every run in which each task is started only while the running tasks are among
those it polls, no script disables the adapter in the network phase of another, and
the adapter stays enabled through every network phase. -/
theorem networkSafe_of_startsWithPolled (h : ReachableBy StartsWithPolled s) : s.NetworkSafe := by
  refine ⟨fun t u hne => not_disconnects_of_startsWithPolled h hne, ?_⟩
  obtain ⟨s₀, hinit, hsteps⟩ := h
  induction hsteps with
  | refl => exact fun t ht => absurd ht.1 (hinit t)
  | tail hrest hstep ih =>
    obtain ⟨e, hg, hse⟩ := hstep
    have hsafe := fun t u hne =>
      not_disconnects_of_startsWithPolled (t := t) (u := u) ⟨s₀, hinit, hrest⟩ hne
    exact fun t ht => link_step ⟨hsafe, ih⟩ hse ht

/-- `IPTest` enables the adapter while the other jobs are idle. -/
theorem networkSafe_ipTest : ∃ s : State, s.InNetworkPhase .ipTest ∧ s.NetworkSafe := by
  obtain ⟨s, hreach, hphase⟩ : ∃ s, ReachableBy StartsWithPolled s ∧ s.InNetworkPhase .ipTest :=
    exists_reachableBy (enter .ipTest 6) (by decide) (by decide)
  exact ⟨s, hphase, networkSafe_of_startsWithPolled hreach⟩

/-! ## Which pairs are unsafe -/

/-- To the first network phase of a script. -/
def toPhase : Task → List Event
  | .toDisk => enter .toDisk 9
  | .syncToDisaster => enter .syncToDisaster 3
  | .regionToDisaster => enter .regionToDisaster 3
  | .disk30days => enter .disk30days 2
  | .ipTest => enter .ipTest 6

/-- To the first `Disable-NetAdapter` of a script. -/
def toDisable : Task → List Event
  | .toDisk => enter .toDisk 12
  | .syncToDisaster => enter .syncToDisaster 25
  | .regionToDisaster => enter .regionToDisaster 10
  | .disk30days => enter .disk30days 5
  | .ipTest => enter .ipTest 8

/-- A run in which `t` comes to disable the adapter in the network phase of `u`. The
one that polls the other is the first to start. -/
def cutOff (t u : Task) : List Event :=
  if Polls t u then toDisable t ++ toPhase u else toPhase u ++ toDisable t

/-- Unless each of the two polls the other, `t` can disconnect `u`. -/
theorem disconnects_cutOff (hne : t ≠ u) (hpolls : ¬ (Polls t u ∧ Polls u t)) :
    ∃ s, Reachable s ∧ s.Disconnects t u := by
  have hall : ∀ t u : Task, t ≠ u → ¬ (Polls t u ∧ Polls u t) →
      (run step idle (cutOff t u)).any fun s => decide (s.Disconnects t u) := by decide +kernel
  exact exists_reachable (cutOff t u) (hall t u hne hpolls)

/-- One script can disconnect another one unless the two are `ToDisk` and
`SyncToDisaster`. -/
theorem exists_disconnects_iff (hne : t ≠ u) : (∃ s, Reachable s ∧ s.Disconnects t u) ↔
    ¬ ((t = .toDisk ∧ u = .syncToDisaster) ∨ (t = .syncToDisaster ∧ u = .toDisk)) := by
  rw [← polls_polls_iff]
  constructor
  · intro h hpolls
    obtain ⟨s, ⟨s₀, hinit, hsteps⟩, hd⟩ := h
    have hapart : ReachableBy (StartsApart Polls) s :=
      ⟨s₀, hinit, hsteps.weaken fun _ _ _ t u _ _ hpolls _ => hpolls⟩
    exact not_disconnects_of_exclusive hapart.reachable
      (not_inBody_inBody hapart hne hpolls.2.1 hpolls.2.2) hd
  · intro hpolls
    exact disconnects_cutOff hne fun h => hpolls ⟨hne, h⟩

/-- `MonthsDiskBackup.ps1` disables the adapter while `toDisaster.ps1` copies. -/
theorem disk30days_disconnects : ¬ ∀ s, Reachable s → s.NetworkSafe := by
  intro h
  obtain ⟨s, hreach, hd⟩ := exists_reachable
    (p := fun s => s.Disconnects .disk30days .syncToDisaster)
    (enter .syncToDisaster 9 ++ enter .disk30days 5) (by decide)
  exact (h s hreach).not_disconnects .disk30days .syncToDisaster (by decide) hd

end OpsScripts.FileSync
