import Mathlib.Data.List.Nodup
import Mathlib.Logic.Function.Basic
import OpsScripts.Core.Transition

/-!
# The mode `ExportXml` of `zabbix_vbr_job.ps1`

The monitoring starts the script whenever it likes. A process that is to export first counts the
processes with `exportxml` in their command line, and goes on only if it is the only one. Its jobs
write temporary files whose names every export shares, copy them to the files that are queried and
remove them.
-/

namespace OpsScripts.Veeam

open Transition

/-- The files of an export, `-name`. -/
inductive ExportName where
  | backupsession
  | backupjob
  | backuptape
  | backupendpoint
  | backupvmbyjob
  | backupsyncvmbyjob
  | backuptaskswithretry
  deriving DecidableEq

/-- The jobs that are started. -/
def exportNames : List ExportName :=
  [.backupsession, .backupjob, .backuptape, .backupendpoint, .backupvmbyjob, .backupsyncvmbyjob,
    .backuptaskswithretry]

theorem mem_exportNames (n : ExportName) : n ∈ exportNames := by
  cases n <;> decide

/-- How far a job is. -/
inductive JobPhase where
  | started
  | exported
  | copied
  | removed
  deriving DecidableEq

/-- What a process of the listing does. -/
inductive Process where
  | counting
  | exporting (jobs : ExportName → JobPhase)
  /-- It did not pass, or it is something else with such a command line. -/
  | idle

namespace ExportRun

variable {P : Type} [DecidableEq P]

/-- The processes of the listing, and whose export the files hold. -/
structure State (P : Type) where
  listing : List P
  process : P → Process
  temp : ExportName → Option P
  new : ExportName → Option P

inductive Event (P : Type) where
  | start (p : P)
  | other (p : P)
  | count (p : P)
  /-- `… | Export-Clixml $args[1]`. -/
  | exportClixml (p : P) (n : ExportName)
  /-- `Copy-Item -Path $args[1] -Destination $args[3]`. -/
  | copyItem (p : P) (n : ExportName)
  /-- `Remove-Item $args[1]`. -/
  | removeItem (p : P) (n : ExportName)
  | leave (p : P)

/-- A process does something else. -/
def State.become (s : State P) (p : P) (x : Process) : State P :=
  { s with process := Function.update s.process p x }

/-- A job of a process is further. -/
def State.advance (s : State P) (p : P) (jobs : ExportName → JobPhase) (n : ExportName)
    (phase : JobPhase) : State P :=
  s.become p (.exporting (Function.update jobs n phase))

/-- The state behind a process's step; `none` if it cannot take it. -/
def act (s : State P) (p : P) : Process → Event P → Option (State P)
  | .counting, .count _ =>
    if s.listing.length = 1 then some (s.become p (.exporting fun _ => .started))
    else some (s.become p .idle)
  | .exporting jobs, .exportClixml _ n =>
    if jobs n = .started then
      some { s.advance p jobs n .exported with temp := Function.update s.temp n (some p) }
    else none
  | .exporting jobs, .copyItem _ n =>
    if jobs n = .exported then
      -- without the file `Copy-Item` only reports an error
      some { s.advance p jobs n .copied with
        new := Function.update s.new n ((s.temp n).or (s.new n)) }
    else none
  | .exporting jobs, .removeItem _ n =>
    if jobs n = .copied then
      some { s.advance p jobs n .removed with temp := Function.update s.temp n none }
    else none
  | .exporting jobs, .leave _ =>
    -- `Get-Job | Wait-Job`
    if exportNames.all (fun n => jobs n = .removed) then
      some { s with listing := s.listing.erase p }
    else none
  | .idle, .leave _ => some { s with listing := s.listing.erase p }
  | _, _ => none

/-- The process of an event that it takes itself. -/
def Event.actor : Event P → P
  | .start p | .other p | .count p | .exportClixml p _ | .copyItem p _ | .removeItem p _
  | .leave p => p

/-- One step of the system. -/
def step (s : State P) (e : Event P) : Option (State P) :=
  match e with
  | .start p =>
    if p ∈ s.listing then none
    else some { s.become p .counting with listing := s.listing ++ [p] }
  | .other p =>
    if p ∈ s.listing then none
    else some { s.become p .idle with listing := s.listing ++ [p] }
  | e => if e.actor ∈ s.listing then act s e.actor (s.process e.actor) e else none

/-- Nothing runs, and no temporary file is left from before. -/
def initial (new : ExportName → Option P) : State P where
  listing := []
  process _ := .idle
  temp _ := none
  new := new

/-- A process of the listing exports. -/
def State.Exports (s : State P) (p : P) (jobs : ExportName → JobPhase) : Prop :=
  p ∈ s.listing ∧ s.process p = .exporting jobs

/-- A job has its temporary file. -/
def HasTemp (phase : JobPhase) : Prop := phase = .exported ∨ phase = .copied

/-- One process exports, and the temporary files are those of its jobs. -/
structure Inv (s : State P) : Prop where
  nodup : s.listing.Nodup
  alone : ∀ p q jobs jobs', s.Exports p jobs → s.Exports q jobs' → p = q
  own : ∀ p jobs n, s.Exports p jobs → HasTemp (jobs n) → s.temp n = some p
  used : ∀ p n, s.temp n = some p → ∃ jobs, s.Exports p jobs ∧ HasTemp (jobs n)

/-! ## What a step can do -/

/-- The steps, with what they need. -/
inductive Moves (s : State P) : State P → Prop
  | enter {p : P} {x : Process} (hp : p ∉ s.listing) (hx : ∀ jobs, x ≠ .exporting jobs) :
      Moves s { s.become p x with listing := s.listing ++ [p] }
  | pass {p : P} (hp : s.listing = [p]) (hcount : s.process p = .counting) :
      Moves s (s.become p (.exporting fun _ => .started))
  | refuse {p : P} (hp : p ∈ s.listing) (hcount : s.process p = .counting) :
      Moves s (s.become p .idle)
  | exportClixml {p : P} {jobs : ExportName → JobPhase} {n : ExportName} (hp : s.Exports p jobs)
      (hn : jobs n = .started) :
      Moves s { s.advance p jobs n .exported with temp := Function.update s.temp n (some p) }
  | copyItem {p : P} {jobs : ExportName → JobPhase} {n : ExportName} (hp : s.Exports p jobs)
      (hn : jobs n = .exported) :
      Moves s { s.advance p jobs n .copied with
        new := Function.update s.new n ((s.temp n).or (s.new n)) }
  | removeItem {p : P} {jobs : ExportName → JobPhase} {n : ExportName} (hp : s.Exports p jobs)
      (hn : jobs n = .copied) :
      Moves s { s.advance p jobs n .removed with temp := Function.update s.temp n none }
  | leave {p : P} (hp : p ∈ s.listing)
      (hdone : ∀ jobs, s.process p = .exporting jobs → ∀ n, jobs n = .removed) :
      Moves s { s with listing := s.listing.erase p }

theorem moves_of_act {s s' : State P} {p : P} {e : Event P} (hp : p ∈ s.listing)
    (h : act s p (s.process p) e = some s') : Moves s s' := by
  cases hprocess : s.process p with
  | counting =>
    rw [hprocess] at h
    cases e with
    | count q =>
      simp only [act] at h
      split_ifs at h with hone <;> obtain rfl := Option.some.inj h
      · obtain ⟨q, hq⟩ := List.length_eq_one_iff.mp hone
        obtain rfl : p = q := List.mem_singleton.mp (hq ▸ hp)
        exact .pass hq hprocess
      · exact .refuse hp hprocess
    | start | other | exportClixml | copyItem | removeItem | leave => cases h
  | exporting jobs =>
    rw [hprocess] at h
    cases e with
    | exportClixml q n =>
      simp only [act] at h
      split_ifs at h with hn
      obtain rfl := Option.some.inj h
      exact .exportClixml ⟨hp, hprocess⟩ hn
    | copyItem q n =>
      simp only [act] at h
      split_ifs at h with hn
      obtain rfl := Option.some.inj h
      exact .copyItem ⟨hp, hprocess⟩ hn
    | removeItem q n =>
      simp only [act] at h
      split_ifs at h with hn
      obtain rfl := Option.some.inj h
      exact .removeItem ⟨hp, hprocess⟩ hn
    | leave q =>
      simp only [act] at h
      split_ifs at h with hdone
      obtain rfl := Option.some.inj h
      refine .leave hp fun jobs' hjobs n => ?_
      rw [hprocess] at hjobs
      cases hjobs
      exact of_decide_eq_true (List.all_eq_true.mp hdone n (mem_exportNames n))
    | start | other | count => cases h
  | idle =>
    rw [hprocess] at h
    cases e with
    | leave q =>
      obtain rfl := Option.some.inj h
      refine .leave hp fun jobs hjobs => ?_
      rw [hprocess] at hjobs
      cases hjobs
    | start | other | count | exportClixml | copyItem | removeItem => cases h

theorem moves_of_step {s s' : State P} {e : Event P} (h : step s e = some s') : Moves s s' := by
  have hactor : ∀ e : Event P, (if e.actor ∈ s.listing then act s e.actor (s.process e.actor) e
      else none) = some s' → Moves s s' := by
    intro e h
    split_ifs at h with hp
    exact moves_of_act hp h
  cases e with
  | start p =>
    simp only [step] at h
    split_ifs at h with hp
    obtain rfl := Option.some.inj h
    exact .enter hp fun jobs hjobs => by cases hjobs
  | other p =>
    simp only [step] at h
    split_ifs at h with hp
    obtain rfl := Option.some.inj h
    exact .enter hp fun jobs hjobs => by cases hjobs
  | count p => exact hactor (.count p) h
  | exportClixml p n => exact hactor (.exportClixml p n) h
  | copyItem p n => exact hactor (.copyItem p n) h
  | removeItem p n => exact hactor (.removeItem p n) h
  | leave p => exact hactor (.leave p) h

/-! ## One export at a time -/

section Invariant

variable {s s' : State P} {p : P} {jobs : ExportName → JobPhase}

/-- Who exports behind a step of one process. -/
theorem exports_update {q : P} {x : Process} {jobs' : ExportName → JobPhase}
    (h : s'.Exports q jobs') (hlisting : s'.listing ⊆ s.listing)
    (hprocess : s'.process = Function.update s.process p x) :
    q = p ∧ x = .exporting jobs' ∨ s.Exports q jobs' := by
  obtain ⟨hmem, hq⟩ := h
  rw [hprocess] at hq
  by_cases hqp : q = p
  · subst hqp
    rw [Function.update_self] at hq
    exact Or.inl ⟨rfl, hq⟩
  · rw [Function.update_of_ne hqp] at hq
    exact Or.inr ⟨hlisting hmem, hq⟩

/-- A job that goes on keeps its temporary file, or gives it up. -/
theorem inv_advance (hs : Inv s) (hp : s.Exports p jobs) {n : ExportName} {phase : JobPhase}
    {v : Option P} (hv : ∀ q, v = some q ↔ q = p ∧ HasTemp phase)
    (new : ExportName → Option P) :
    Inv { s.advance p jobs n phase with temp := Function.update s.temp n v, new := new } := by
  have hself : ∀ q jobs', State.Exports { s.advance p jobs n phase with
      temp := Function.update s.temp n v, new := new } q jobs' →
        q = p ∧ jobs' = Function.update jobs n phase := by
    intro q jobs' hq
    have hqp : q = p := by
      rcases exports_update (s := s) (p := p) hq (fun _ h => h) rfl with ⟨h, -⟩ | h
      · exact h
      · exact hs.alone q p jobs' jobs h hp
    subst hqp
    have hprocess := hq.2
    simp only [State.advance, State.become, Function.update_self, Process.exporting.injEq]
      at hprocess
    exact ⟨rfl, hprocess.symm⟩
  constructor
  · exact hs.nodup
  · intro q r jobs₁ jobs₂ hq hr
    rw [(hself q jobs₁ hq).1, (hself r jobs₂ hr).1]
  · intro q jobs' n' hq htemp
    obtain ⟨rfl, rfl⟩ := hself q jobs' hq
    change Function.update s.temp n v n' = some q
    by_cases hn : n' = n
    · subst hn
      rw [Function.update_self] at htemp ⊢
      exact (hv q).mpr ⟨rfl, htemp⟩
    · rw [Function.update_of_ne hn] at htemp ⊢
      exact hs.own q jobs n' hp htemp
  · intro q n' htemp
    change Function.update s.temp n v n' = some q at htemp
    by_cases hn : n' = n
    · subst hn
      rw [Function.update_self] at htemp
      obtain ⟨rfl, hphase⟩ := (hv q).mp htemp
      refine ⟨Function.update jobs n' phase, ⟨hp.1, ?_⟩, ?_⟩
      · exact Function.update_self ..
      · rwa [Function.update_self]
    · rw [Function.update_of_ne hn] at htemp
      obtain ⟨jobs', hq, hphase⟩ := hs.used q n' htemp
      obtain rfl := hs.alone q p jobs' jobs hq hp
      obtain rfl : jobs = jobs' := Process.exporting.inj (hp.2.symm.trans hq.2)
      refine ⟨Function.update jobs n phase, ⟨hp.1, Function.update_self ..⟩, ?_⟩
      rwa [Function.update_of_ne hn]

/-- A process that is not to export changes nothing for those that do. -/
theorem inv_become (hs : Inv s) {x : Process} (hx : ∀ jobs, x ≠ .exporting jobs)
    (hp : ∀ jobs, ¬s.Exports p jobs) {listing : List P} (hnodup : listing.Nodup)
    (hlisting : ∀ q, q ≠ p → (q ∈ listing ↔ q ∈ s.listing)) :
    Inv { s.become p x with listing := listing } := by
  have hexports : ∀ q jobs, State.Exports { s.become p x with listing := listing } q jobs ↔
      s.Exports q jobs := by
    intro q jobs
    by_cases hqp : q = p
    · subst hqp
      refine ⟨fun h => absurd ?_ (hx jobs), fun h => absurd h (hp jobs)⟩
      have hprocess := h.2
      simpa only [State.become, Function.update_self] using hprocess
    · simp only [State.Exports, State.become, Function.update_of_ne hqp, hlisting q hqp]
  constructor
  · exact hnodup
  · intro q r jobs jobs' hq hr
    exact hs.alone q r jobs jobs' ((hexports q jobs).mp hq) ((hexports r jobs').mp hr)
  · intro q jobs n hq
    exact hs.own q jobs n ((hexports q jobs).mp hq)
  · intro q n htemp
    obtain ⟨jobs, hq, hphase⟩ := hs.used q n htemp
    exact ⟨jobs, (hexports q jobs).mpr hq, hphase⟩

/-- The only process of the listing starts its jobs. -/
theorem inv_pass (hs : Inv s) (hp : s.listing = [p]) (hcount : s.process p = .counting) :
    Inv (s.become p (.exporting fun _ => .started)) := by
  have hnone : ∀ q jobs, ¬s.Exports q jobs := by
    rintro q jobs ⟨hmem, hprocess⟩
    obtain rfl : q = p := List.mem_singleton.mp (hp ▸ hmem)
    rw [hcount] at hprocess
    cases hprocess
  have hself : ∀ q jobs, (s.become p (.exporting fun _ => .started)).Exports q jobs →
      q = p ∧ jobs = fun _ => .started := by
    intro q jobs hq
    rcases exports_update (s := s) (p := p) hq (fun _ h => h) rfl with ⟨hqp, hx⟩ | h
    · exact ⟨hqp, (Process.exporting.inj hx).symm⟩
    · exact absurd h (hnone q jobs)
  constructor
  · exact hs.nodup
  · intro q r jobs jobs' hq hr
    rw [(hself q jobs hq).1, (hself r jobs' hr).1]
  · intro q jobs n hq htemp
    obtain ⟨-, rfl⟩ := hself q jobs hq
    rcases htemp with h | h <;> cases h
  · intro q n htemp
    obtain ⟨jobs, hq, -⟩ := hs.used q n htemp
    exact absurd hq (hnone q jobs)

/-- A process that leaves has no temporary files. -/
theorem inv_leave (hs : Inv s)
    (hdone : ∀ jobs, s.process p = .exporting jobs → ∀ n, jobs n = .removed) :
    Inv { s with listing := s.listing.erase p } := by
  have hexports : ∀ q jobs, State.Exports { s with listing := s.listing.erase p } q jobs →
      s.Exports q jobs := fun q jobs h => ⟨List.mem_of_mem_erase h.1, h.2⟩
  constructor
  · exact hs.nodup.erase p
  · intro q r jobs jobs' hq hr
    exact hs.alone q r jobs jobs' (hexports q jobs hq) (hexports r jobs' hr)
  · intro q jobs n hq
    exact hs.own q jobs n (hexports q jobs hq)
  · intro q n htemp
    obtain ⟨jobs, hq, hphase⟩ := hs.used q n htemp
    have hqp : q ≠ p := by
      rintro rfl
      rw [hdone jobs hq.2 n] at hphase
      rcases hphase with h | h <;> cases h
    exact ⟨jobs, ⟨(List.mem_erase_of_ne hqp).mpr hq.1, hq.2⟩, hphase⟩

/-- Every step keeps to one export at a time. -/
theorem inv_moves (hs : Inv s) (h : Moves s s') : Inv s' := by
  cases h with
  | @enter p x hp hx =>
    refine inv_become hs hx (fun jobs h => hp h.1) ?_ fun q hq => ?_
    · exact List.nodup_append.mpr ⟨hs.nodup, List.nodup_singleton p,
        fun a ha b hb => by rintro rfl; exact hp (List.mem_singleton.mp hb ▸ ha)⟩
    · rw [List.mem_append, List.mem_singleton, or_iff_left hq]
  | pass hp hcount => exact inv_pass hs hp hcount
  | @refuse p hp hcount =>
    refine inv_become hs (fun jobs hjobs => by cases hjobs) (fun jobs h => ?_) hs.nodup
      fun q _ => Iff.rfl
    have hprocess := h.2
    rw [hcount] at hprocess
    cases hprocess
  | exportClixml hp hn =>
    refine inv_advance hs hp (fun q => ?_) s.new
    simp [HasTemp, eq_comm]
  | @copyItem p jobs n hp hn =>
    have htemp : s.temp n = some p := hs.own p jobs n hp (Or.inl hn)
    have hkept : ∀ q, some p = some q ↔ q = p ∧ HasTemp .copied := by
      intro q
      simp [HasTemp, eq_comm]
    have hadvance := inv_advance hs hp (n := n) hkept
      (Function.update s.new n ((s.temp n).or (s.new n)))
    rwa [← htemp, Function.update_eq_self] at hadvance
  | removeItem hp hn =>
    refine inv_advance hs hp (fun q => ?_) s.new
    simp [HasTemp]
  | leave _ hdone => exact inv_leave hs hdone

/-- A job copies when it has exported. -/
theorem copyItem_of_step {n : ExportName} (h : step s (.copyItem p n) = some s') :
    ∃ jobs, s.Exports p jobs ∧ jobs n = .exported ∧
      s' = { s.advance p jobs n .copied with
        new := Function.update s.new n ((s.temp n).or (s.new n)) } := by
  change (if p ∈ s.listing then act s p (s.process p) (.copyItem p n) else none) = some s' at h
  split_ifs at h with hp
  cases hprocess : s.process p with
  | exporting jobs =>
    rw [hprocess, act] at h
    split_ifs at h with hn
    exact ⟨jobs, ⟨hp, hprocess⟩, hn, (Option.some.inj h).symm⟩
  | counting | idle =>
    rw [hprocess] at h
    cases h

omit [DecidableEq P] in
theorem inv_initial (new : ExportName → Option P) : Inv (initial new) where
  nodup := List.nodup_nil
  alone p q jobs jobs' hp := absurd hp.1 List.not_mem_nil
  own p jobs n hp := absurd hp.1 List.not_mem_nil
  used p n h := by cases h

/-- In every run there is at most one export; a job copies what its own export wrote and leaves the
files of the other jobs, and without an export there are no temporary files. -/
theorem one_export {new : ExportName → Option P}
    (h : Steps step (fun _ _ => True) (initial new) s) :
    (∀ p q jobs jobs', s.Exports p jobs → s.Exports q jobs' → p = q) ∧
      (∀ p n s', step s (.copyItem p n) = some s' → s'.new = Function.update s.new n (some p)) ∧
      ((∀ p jobs, ¬s.Exports p jobs) → ∀ n, s.temp n = none) := by
  have hs : Inv s := h.invariant (fun _ _ _ hi _ hstep => inv_moves hi (moves_of_step hstep))
    (inv_initial new)
  refine ⟨hs.alone, fun p n s' hstep => ?_, fun hnone n => ?_⟩
  · obtain ⟨jobs, hp, hn, rfl⟩ := copyItem_of_step hstep
    have htemp := hs.own p jobs n hp (Or.inl hn)
    simp only [htemp, Option.some_or]
  · rw [Option.eq_none_iff_forall_ne_some]
    intro p htemp
    obtain ⟨jobs, hp, -⟩ := hs.used p n htemp
    exact hnone p jobs hp

end Invariant

/-- One process exports when another one is started. -/
def overlapping : State Nat :=
  let first := { (initial fun _ => none).become 1 .counting with listing := [1] }
  let passed := first.become 1 (.exporting fun _ => .started)
  { passed.become 2 .counting with listing := [1, 2] }.become 2 .idle

theorem one_export_overlapping :
    overlapping.Exports 1 (fun _ => .started) ∧ ¬∃ jobs, overlapping.Exports 2 jobs := by
  have hrun : run step (initial fun _ => none)
      [Event.start 1, Event.count 1, Event.start 2, Event.count 2] = some overlapping := rfl
  have hone := (one_export (steps_run (along_of_forall (fun _ _ => trivial) _) hrun)).1
  have hfirst : overlapping.Exports 1 fun _ => .started := ⟨List.mem_cons_self, rfl⟩
  refine ⟨hfirst, ?_⟩
  rintro ⟨jobs, hsecond⟩
  exact absurd (hone 1 2 _ jobs hfirst hsecond) (by decide)

end ExportRun

end OpsScripts.Veeam
