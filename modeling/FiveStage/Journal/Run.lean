import FiveStage.Journal.Cycle
import FiveStage.Run

/-
  What a run reports — the events of its steps, one step after the other

  Only events that pass a filter are kept, so a long run whose reader asks for
  little costs little.
-/

namespace FiveStage

namespace Journal

/-- The events of at most `budget` steps, after those already collected. A
step that faults still reports; a run that has nothing left to do does not. -/
def steps {σ : Type} (step : σ → Except (Breakdown σ) (Option σ)) (events : σ → List Event)
    (keep : Event → Bool) : (budget : Nat) → σ → Array Event → Array Event
  | 0, _, log => log
  | budget + 1, s, log =>
    match step s with
    | .ok none => log
    | .error _ => log.appendList ((events s).filter keep)
    | .ok (some s') =>
      steps step events keep budget s' (log.appendList ((events s).filter keep))

def machineRun (keep : Event → Bool) (budget : Nat) (m : Machine) : List Event :=
  (steps Machine.stepUnlessIdle machineStep keep budget m #[]).toList

def sequentialRun (keep : Event → Bool) (budget : Nat) (s : State) : List Event :=
  (steps Sequential.step sequentialStep keep budget s #[]).toList

end Journal

end FiveStage
