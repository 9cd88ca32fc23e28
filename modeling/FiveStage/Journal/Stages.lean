import FiveStage.Event
import FiveStage.Sequential

/-
  What the stages report — the events of fetching, decoding, executing and
  accessing memory, and of one whole instruction

  The events are read off the same functions that do the work, in the order
  in which it is done. Work that faults reports nothing of itself; what came
  before it stays.
-/

namespace FiveStage

namespace Journal

/-- Nothing is reported where there is nothing to fetch. -/
def fetch (mem : Memory) (pc : Word) : List Event :=
  match InFlight.fetch mem pc with
  | .ok (some i) => [.fetched i.pc i.raw]
  | _ => []

def decode (i : InFlight) (regs : Registers) : List Event :=
  match i.decode? regs with
  | some d => [.decoded d]
  | none => [.dropped i.raw i.pc]

/-- An instruction that has not been decoded is passed on in silence. -/
def execute (i : InFlight) : List Event :=
  if i.opcode.isSome && i.format.isSome then
    .executed i :: (i.execute.2.map (Event.redirected i.pc)).toList
  else []

def accessMemory (i : InFlight) (mem : Memory) : List Event :=
  match i.access with
  | none => []
  | some a =>
    match a.word mem with
    | .error _ => []
    | .ok w =>
      match a.kind with
      | .load => [.loaded a.address w]
      | .store => [.stored a.address w]

def complete (s : State) (i : InFlight) : List Event :=
  let executed := i.execute.1
  execute i ++ accessMemory executed s.mem ++
    match Sequential.complete s i with
    | .ok (_, s') => [.advanced s.cpu.pc s'.cpu.pc]
    | .error _ => []

def sequentialStep (s : State) : List Event :=
  match InFlight.fetch s.mem s.cpu.pc with
  | .ok (some fetched) =>
    fetch s.mem s.cpu.pc ++ decode fetched s.cpu.regs ++
      match fetched.decode? s.cpu.regs with
      | none => [.advanced s.cpu.pc (Sequential.skip s).cpu.pc]
      | some i => complete s i
  | _ => []

end Journal

end FiveStage
