import Mathlib.Data.List.Basic

/-!
# Scripts that are cut off

A script is a list of blocks, each with a guard that is looked at when the block is
reached. Its run is the list of commands it executes, and a run that is cut off has
executed the first of them. What holds throughout a list of commands holds wherever it is
cut off.
-/

namespace OpsScripts.Interruption

universe u v

variable {State : Type u} {Command : Type v} (exec : State → Command → State)

/-- A block with its guard. -/
structure Block (State : Type u) (Command : Type v) where
  guard : State → Bool
  commands : List Command

/-- The commands that a script executes. -/
def executed : List (Block State Command) → State → List Command
  | [], _ => []
  | block :: blocks, s =>
    if block.guard s then
      block.commands ++ executed blocks (block.commands.foldl exec s)
    else executed blocks s

/-- A property holds before and after each of the commands. -/
def Throughout (P : State → Prop) : State → List Command → Prop
  | s, [] => P s
  | s, c :: cs => P s ∧ Throughout P (exec s c) cs

variable {exec} {P : State → Prop} {s : State}

/-- A block whose guard holds is executed. -/
theorem executed_of_true {guard : State → Bool} {commands : List Command}
    {blocks : List (Block State Command)} (h : guard s = true) :
    executed exec (⟨guard, commands⟩ :: blocks) s =
      commands ++ executed exec blocks (commands.foldl exec s) :=
  if_pos h

/-- A block whose guard fails is passed over. -/
theorem executed_of_false {guard : State → Bool} {commands : List Command}
    {blocks : List (Block State Command)} (h : guard s = false) :
    executed exec (⟨guard, commands⟩ :: blocks) s = executed exec blocks s :=
  if_neg (Bool.eq_false_iff.mp h)

/-- What the first blocks execute is what the others find. -/
theorem executed_append (first others : List (Block State Command)) (s : State) :
    executed exec (first ++ others) s =
      executed exec first s ++ executed exec others ((executed exec first s).foldl exec s) := by
  induction first generalizing s with
  | nil => rfl
  | cons block first ih =>
    cases hguard : block.guard s with
    | true =>
      rw [List.cons_append, executed, if_pos hguard, executed, if_pos hguard, ih,
        List.foldl_append, List.append_assoc]
    | false =>
      have hfalse : ¬block.guard s = true := Bool.eq_false_iff.mp hguard
      rw [List.cons_append, executed, if_neg hfalse, executed, if_neg hfalse, ih]

/-- What holds throughout a list of commands holds wherever it is cut off. -/
theorem Throughout.take {cs : List Command} (h : Throughout exec P s cs) (k : Nat) :
    P ((cs.take k).foldl exec s) := by
  induction cs generalizing s k with
  | nil => rwa [List.take_nil]
  | cons c cs ih =>
    cases k with
    | zero => exact h.1
    | succ k => exact ih h.2 k

/-- What each command keeps holds throughout. -/
theorem throughout_of_step {cs : List Command} (hstep : ∀ c ∈ cs, ∀ s, P s → P (exec s c))
    (hs : P s) : Throughout exec P s cs := by
  induction cs generalizing s with
  | nil => exact hs
  | cons c cs ih =>
    exact ⟨hs, ih (fun c' hc' => hstep c' (List.mem_cons_of_mem c hc'))
      (hstep c List.mem_cons_self s hs)⟩

/-- Behind some of the commands only the others are left to be cut off. -/
theorem foldl_take_append (before after : List Command) (s : State) {k : Nat}
    (hk : before.length ≤ k) :
    ((before ++ after).take k).foldl exec s =
      (after.take (k - before.length)).foldl exec (before.foldl exec s) := by
  rw [List.take_append, List.take_of_length_le hk, List.foldl_append]

end OpsScripts.Interruption
