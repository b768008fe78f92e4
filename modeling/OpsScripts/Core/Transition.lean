import Mathlib.Logic.Relation

/-!
# Transition systems with guarded steps

A system is a partial step function over states and events. `Steps` collects the
runs whose every step meets a guard, which may look at the state before the step.
Facts about runs are proved through the invariant rule, and mutual exclusion of
parties that poll each other through the handshake rule.
-/

namespace OpsScripts.Transition

universe u v w

section Runs

variable {State : Type u} {Event : Type v} (step : State → Event → Option State)

/-- One step whose event meets the guard in the state it is taken from. -/
def Step (guard : State → Event → Prop) (s s' : State) : Prop :=
  ∃ e, guard s e ∧ step s e = some s'

/-- The runs all of whose steps meet the guard. -/
def Steps (guard : State → Event → Prop) : State → State → Prop :=
  Relation.ReflTransGen (Step step guard)

/-- The events of a list, taken one after another. -/
def run (s : State) : List Event → Option State
  | [] => some s
  | e :: es => (step s e).bind fun s' => run s' es

/-- The events of a list meet the guard, each in the state it is taken from. -/
def Along (guard : State → Event → Prop) : State → List Event → Prop
  | _, [] => True
  | s, e :: es => guard s e ∧
    match step s e with
    | none => True
    | some s' => Along guard s' es

instance decidableAlong (guard : State → Event → Prop) [∀ s e, Decidable (guard s e)] :
    ∀ s es, Decidable (Along step guard s es)
  | _, [] => isTrue trivial
  | s, e :: es => by
    unfold Along
    cases step s e with
    | none => exact inferInstanceAs (Decidable (guard s e ∧ True))
    | some s' =>
      have := decidableAlong guard s' es
      exact inferInstanceAs (Decidable (guard s e ∧ Along step guard s' es))

variable {step} {guard : State → Event → Prop} {s s' : State}

/-- A single step is a run. -/
theorem Steps.single {e : Event} (hg : guard s e) (h : step s e = some s') :
    Steps step guard s s' :=
  Relation.ReflTransGen.single ⟨e, hg, h⟩

/-- Runs compose. -/
theorem Steps.append {s'' : State} (h : Steps step guard s s') (h' : Steps step guard s' s'') :
    Steps step guard s s'' :=
  Relation.ReflTransGen.trans h h'

/-- A weaker guard admits all the runs. -/
theorem Steps.weaken {guard' : State → Event → Prop} (hg : ∀ s e, guard s e → guard' s e)
    (h : Steps step guard s s') : Steps step guard' s s' := by
  induction h with
  | refl => exact Relation.ReflTransGen.refl
  | tail _ hstep ih =>
    obtain ⟨e, he, hs⟩ := hstep
    exact ih.append (Steps.single (hg _ e he) hs)

/-- What holds at the start and is kept by every guarded step holds throughout. -/
theorem Steps.invariant {I : State → Prop}
    (hstep : ∀ s e s', I s → guard s e → step s e = some s' → I s')
    (h : Steps step guard s s') (hs : I s) : I s' := by
  induction h with
  | refl => exact hs
  | tail _ h ih =>
    obtain ⟨e, he, hse⟩ := h
    exact hstep _ e _ ih he hse

/-- A guard that all events meet everywhere is met along every list. -/
theorem along_of_forall (hg : ∀ s e, guard s e) (es : List Event) : Along step guard s es := by
  induction es generalizing s with
  | nil => trivial
  | cons e es ih =>
    refine ⟨hg s e, ?_⟩
    cases step s e with
    | none => trivial
    | some s' => exact ih

/-- A list of events that can be taken and meets the guard is a run. -/
theorem steps_run {es : List Event} (hg : Along step guard s es) (h : run step s es = some s') :
    Steps step guard s s' := by
  induction es generalizing s with
  | nil =>
    obtain rfl : s = s' := Option.some.inj h
    exact Relation.ReflTransGen.refl
  | cons e es ih =>
    simp only [run, Option.bind_eq_some_iff] at h
    obtain ⟨s₁, hfirst, hrest⟩ := h
    simp only [Along, hfirst] at hg
    exact (Steps.single hg.1 hfirst).append (ih hg.2 hrest)

end Runs

/-! ## Exclusion by polling -/

/-- Parties that hold grants against each other. A grant is held only while its
party is active, and a step gives a new one only against a party that is inactive
after the step. -/
structure Handshake {State : Type u} {Event : Type v} (step : State → Event → Option State)
    (guard : State → Event → Prop) (Party : Type w) where
  active : State → Party → Prop
  granted : State → Party → Party → Prop
  active_of_granted : ∀ {s p q}, granted s p q → active s p
  granted_step : ∀ {s e s' p q}, guard s e → step s e = some s' → p ≠ q →
    granted s' p q → granted s p q ∨ ¬ active s' q

namespace Handshake

variable {State : Type u} {Event : Type v} {step : State → Event → Option State}
  {guard : State → Event → Prop} {Party : Type w}

/-- No two parties hold grants against each other. -/
def Exclusive (H : Handshake step guard Party) (s : State) : Prop :=
  ∀ p q, p ≠ q → ¬ (H.granted s p q ∧ H.granted s q p)

/-- One step keeps the grants exclusive. -/
theorem exclusive_step (H : Handshake step guard Party) {s s' : State} {e : Event}
    (hs : H.Exclusive s) (hg : guard s e) (h : step s e = some s') : H.Exclusive s' := by
  intro p q hne hboth
  obtain ⟨hpq, hqp⟩ := hboth
  have holdp := (H.granted_step hg h hne hpq).resolve_right fun hn => hn (H.active_of_granted hqp)
  have holdq := (H.granted_step hg h hne.symm hqp).resolve_right
    fun hn => hn (H.active_of_granted hpq)
  exact hs p q hne ⟨holdp, holdq⟩

/-- The grants stay exclusive in every run. -/
theorem exclusive_steps (H : Handshake step guard Party) {s s' : State}
    (h : Steps step guard s s') (hs : H.Exclusive s) : H.Exclusive s' :=
  h.invariant (fun _ _ _ hi hg hstep => H.exclusive_step hi hg hstep) hs

end Handshake

end OpsScripts.Transition
