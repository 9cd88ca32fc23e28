import FiveStage.Machine
import FiveStage.Sequential

/-
  Runs — steps repeated until nothing is left, a budget is spent, a step
  faults or an onlooker objects

  `Run.go` is the one loop. What differs between the two ways of executing a
  program is the step; what differs between a plain run and an observed one is
  the onlooker, which is told the number and the state of every completed step
  and may end the run.
-/

namespace FiveStage

inductive Ending (ε : Type) where
  /-- Nothing was left to do, or the budget was spent. -/
  | complete
  /-- The next step faults. -/
  | fault (f : Fault)
  /-- The onlooker objected to the last step. -/
  | refused (e : ε)
  deriving DecidableEq, Repr

/-- A run that has ended: the last state, the steps completed, what the onlooker
has noted. -/
structure Run (σ α ε : Type) where
  state : σ
  steps : Nat
  notes : α
  ending : Ending ε

/-- An onlooker is told the number of a step, the state after it and its own
notes so far. -/
abbrev Onlooker (σ α ε : Type) := Nat → σ → α → α × Option ε

namespace Run

def nobody (σ : Type) : Onlooker σ Unit Empty := fun _ _ _ => ((), none)

/-- At most `budget` steps more, after `steps` already made. A step answers
`none` when nothing is left to do. -/
def go {σ α ε : Type} (step : σ → Except (Breakdown σ) (Option σ)) (watch : Onlooker σ α ε) :
    (budget steps : Nat) → σ → α → Run σ α ε
  | 0, steps, s, notes => ⟨s, steps, notes, .complete⟩
  | budget + 1, steps, s, notes =>
    match step s with
    | .error b => ⟨b.state, steps, notes, .fault b.fault⟩
    | .ok none => ⟨s, steps, notes, .complete⟩
    | .ok (some s') =>
      match watch (steps + 1) s' notes with
      | (notes, none) => go step watch budget (steps + 1) s' notes
      | (notes, some e) => ⟨s', steps + 1, notes, .refused e⟩

end Run

namespace Machine

def stepUnlessIdle (m : Machine) : Except (Breakdown Machine) (Option Machine) :=
  if m.isIdle then .ok none else m.step.map some

def runWith {α ε : Type} (watch : Onlooker Machine α ε) (budget : Nat) (m : Machine) (notes : α) :
    Run Machine α ε :=
  Run.go stepUnlessIdle watch budget 0 m notes

def run (budget : Nat) (m : Machine) : Run Machine Unit Empty :=
  m.runWith (Run.nobody Machine) budget ()

end Machine

namespace Sequential

def run (budget : Nat) (s : State) : Run State Unit Empty :=
  Run.go step (Run.nobody State) budget 0 s ()

end Sequential

end FiveStage
