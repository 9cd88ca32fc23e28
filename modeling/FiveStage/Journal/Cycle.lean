import FiveStage.Journal.Stages
import FiveStage.Machine

/-
  What a cycle reports — the events of the stages in their order, then those
  of the hazards

  A cycle that faults reports what came before the fault.
-/

namespace FiveStage

namespace Journal

def stage (current : Slots) (c : Cycle) : Stage → List Event
  | .fetch => if c.cpu.stall then [] else fetch c.mem c.cpu.pc
  | .decode => (current.fetch.map (decode · c.cpu.regs)).getD []
  | .execute => (current.decode.map execute).getD []
  | .memory => (current.execute.map (accessMemory · c.mem)).getD []
  | .writeBack => []

/-- The events of stages that run one after the other, up to a fault, then
those of what follows the last of them. -/
def stages (current : Slots) (last : Cycle → List Event) : List Stage → Cycle → List Event
  | [], c => last c
  | s :: rest, c =>
    stage current c s ++
      match c.act current s with
      | .ok c' => stages current last rest c'
      | .error _ => []

def hazards (slots : Slots) (cpu : Cpu) : List Event :=
  let held := (Hazard.hold slots (Hazard.release slots cpu)).1
  (if cpu.stall && Hazard.controlFlowIn slots.writeBack then [.released] else [])
    ++ (if Hazard.controlFlowIn slots.decode then (slots.fetch.map Event.squashed).toList else [])
    ++ match held.decode with
      | some i => if Hazard.awaitsLoad held i then [.interlocked i] else []
      | none => []

def machineStep (m : Machine) : List Event :=
  .cycleStarted m.cpu.pc m.cpu.stall m.slots.occupancy
    :: stages m.slots (fun c => hazards c.next c.cpu) Stage.all (Cycle.start m.cpu m.mem)

end Journal

end FiveStage
