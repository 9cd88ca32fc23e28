import FiveStage.Hazard
import FiveStage.InFlight.Decode
import FiveStage.InFlight.Execute
import FiveStage.InFlight.Commit

/-
  The pipelined machine — one clock cycle

  In a cycle every stage takes the occupant of the slot before it and fills
  its own slot of the next state. The stages read the slots as they stood at
  the start of the cycle, so what one of them puts into the next slots is no
  business of the others; they share only the registers and memory. After the
  five have run, a taken branch or jump moves the program counter, hazards are
  resolved, and the program counter advances past what was fetched.

  A cycle in which a stage faults ends there: what the stages before it have
  written stays written, and the slots stay as they were.
-/

namespace FiveStage

structure Machine where
  cpu : Cpu
  mem : Memory
  slots : Slots

/-- What a cycle has brought about so far. -/
structure Cycle where
  cpu : Cpu
  mem : Memory
  next : Slots
  redirect : Option Word

namespace Cycle

def start (cpu : Cpu) (mem : Memory) : Cycle := ⟨cpu, mem, .empty, none⟩

/-- Nothing is fetched during a stall. -/
def fetch (c : Cycle) : Except Fault Cycle := do
  let i ← if c.cpu.stall then pure none else InFlight.fetch c.mem c.cpu.pc
  return { c with next := { c.next with fetch := i } }

/-- What cannot be decoded is dropped. -/
def decode (current : Slots) (c : Cycle) : Cycle :=
  { c with next := { c.next with decode := current.fetch.bind (·.decode? c.cpu.regs) } }

def execute (current : Slots) (c : Cycle) : Cycle :=
  match current.decode with
  | none => { c with redirect := none }
  | some i =>
    let (i, redirect) := i.execute
    { c with next := { c.next with execute := some i }, redirect }

def memory (current : Slots) (c : Cycle) : Except Fault Cycle :=
  match current.execute with
  | none => .ok { c with next := { c.next with memory := none } }
  | some i => do
    let (i, mem) ← i.accessMemory c.mem
    return { c with mem, next := { c.next with memory := some i } }

def writeBack (current : Slots) (c : Cycle) : Except Fault Cycle :=
  match current.memory with
  | none => .ok { c with next := { c.next with writeBack := none } }
  | some i => do
    let (i, regs) ← i.writeBack c.cpu.regs
    return { c with cpu := { c.cpu with regs }, next := { c.next with writeBack := some i } }

/-- The work of one stage, with the slots as they stood at the start. -/
def act (current : Slots) (c : Cycle) : Stage → Except Fault Cycle
  | .fetch => c.fetch
  | .decode => .ok (c.decode current)
  | .execute => .ok (c.execute current)
  | .memory => c.memory current
  | .writeBack => c.writeBack current

/-- The work of stages one after the other, up to a fault. A stage that faults
contributes nothing. -/
def perform (current : Slots) : List Stage → Cycle → Except (Breakdown Cycle) Cycle
  | [], c => .ok c
  | s :: rest, c =>
    match c.act current s with
    | .ok c' => perform current rest c'
    | .error f => .error ⟨f, c⟩

/-- The program counter moves past a fetched instruction unless something has
already moved it or fetching is held. -/
def advance (slots : Slots) (cpu : Cpu) : Cpu :=
  if slots.fetch.any (fun i => i.pc == cpu.pc) && !cpu.stall then { cpu with pc := cpu.pc + 4 }
  else cpu

def settle (c : Cycle) : Machine :=
  let (slots, cpu) := Hazard.resolve c.next { c.cpu with pc := c.redirect.getD c.cpu.pc }
  { cpu := advance slots cpu, mem := c.mem, slots }

end Cycle

namespace Machine

def start (s : State) : Machine := ⟨s.cpu, s.mem, .empty⟩

/-- The architectural state, whatever is in flight. -/
def state (m : Machine) : State := ⟨m.cpu, m.mem⟩

/-- The stages of a cycle in an order of choice, then the settling. -/
def stepIn (order : List Stage) (m : Machine) : Except (Breakdown Machine) Machine :=
  match Cycle.perform m.slots order (Cycle.start m.cpu m.mem) with
  | .ok c => .ok c.settle
  | .error b => .error ⟨b.fault, { m with cpu := b.state.cpu, mem := b.state.mem }⟩

def step (m : Machine) : Except (Breakdown Machine) Machine := m.stepIn Stage.all

def isIdle (m : Machine) : Bool :=
  m.slots.isEmpty && !m.cpu.stall && m.state.nothingToFetch

end Machine

end FiveStage
