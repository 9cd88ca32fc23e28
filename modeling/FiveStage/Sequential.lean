import FiveStage.State
import FiveStage.InFlight.Decode
import FiveStage.InFlight.Execute
import FiveStage.InFlight.Commit

/-
  Sequential execution — one instruction from fetch to write-back at a time

  This is what a program means. A step answers `none` where there is nothing
  to run and skips a word it does not know. A step that faults leaves what it
  has changed by then.
-/

namespace FiveStage

namespace Sequential

/-- Takes a decoded instruction through execution, memory and write-back: the
instruction as it ends and the state after it. The program counter moves to
the target of a taken branch or jump, else past the instruction. -/
def complete (s : State) (i : InFlight) : Except (Breakdown State) (InFlight × State) :=
  let (i, redirect) := i.execute
  match i.accessMemory s.mem with
  | .error f => .error ⟨f, s⟩
  | .ok (i, mem) =>
    match i.writeBack s.cpu.regs with
    | .error f => .error ⟨f, { s with mem }⟩
    | .ok (i, regs) =>
      .ok (i, { cpu := { s.cpu with pc := redirect.getD (s.cpu.pc + 4), regs }, mem })

def skip (s : State) : State :=
  { s with cpu := { s.cpu with pc := s.cpu.pc + 4 } }

def step (s : State) : Except (Breakdown State) (Option State) :=
  match InFlight.fetch s.mem s.cpu.pc with
  | .error f => .error ⟨f, s⟩
  | .ok none => .ok none
  | .ok (some fetched) =>
    match fetched.decode? s.cpu.regs with
    | none => .ok (some (skip s))
    | some i => (complete s i).map (fun done => some done.2)

end Sequential

end FiveStage
