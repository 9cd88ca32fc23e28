import FiveStage.Slots
import FiveStage.State

/-
  Hazards — what is put right after the slots have moved on

  Three things happen, in this order.
    1. A branch or jump that has been written back releases the stall it
       caused (`release`).
    2. A branch or jump that has just been decoded drops what was fetched
       behind it and stalls fetching (`hold`).
    3. The decoded instruction gets its operands from the instructions ahead
       of it (`forward`), or, if the one right ahead is a load that has not
       read memory yet, is sent back to be decoded again (`replay`).
-/

namespace FiveStage

namespace Hazard

def controlFlowIn (slot : Option InFlight) : Bool := slot.any InFlight.isControlFlow

def release (slots : Slots) (cpu : Cpu) : Cpu :=
  if controlFlowIn slots.writeBack then { cpu with stall := false } else cpu

def hold (slots : Slots) (cpu : Cpu) : Slots × Cpu :=
  if controlFlowIn slots.decode then ({ slots with fetch := none }, { cpu with stall := true })
  else (slots, cpu)

def reads (i : InFlight) (dest : Word) : Bool :=
  i.source1 == some dest || i.source2 == some dest

/-- The operands that a register write supplies take its value. -/
def supply (w : RegWrite) (i : InFlight) : InFlight :=
  { i with
    rs1Value := if i.source1 = some w.dest then w.value else i.rs1Value
    rs2Value := if i.source2 = some w.dest then w.value else i.rs2Value }

/-- The pending register writes ahead of the decoded instruction, oldest first. -/
def pending (slots : Slots) : List RegWrite :=
  [slots.writeBack, slots.memory, slots.execute].filterMap (·.bind InFlight.result)

/-- Every pending write in turn supplies its operands, so the youngest writer
of a register has the last word. -/
def forward (slots : Slots) (i : InFlight) : InFlight :=
  (pending slots).foldl (fun i w => supply w i) i

def awaitsLoad (slots : Slots) (i : InFlight) : Bool :=
  match slots.execute with
  | some ahead => ahead.isLoad && ahead.result.any (fun w => reads i w.dest)
  | none => false

def replay (slots : Slots) (i : InFlight) : Slots :=
  { slots with fetch := some { i with stage := .fetch }, decode := none }

/-- Puts the slots and the front of the pipeline right. A branch or jump that
is sent back does not stall; it will when it is decoded again. -/
def resolve (slots : Slots) (cpu : Cpu) : Slots × Cpu :=
  let (held, cpu) := hold slots (release slots cpu)
  match held.decode with
  | none => (held, cpu)
  | some i =>
    if awaitsLoad held i then
      (replay held i, { cpu with pc := i.pc, stall := if i.isControlFlow then false else cpu.stall })
    else ({ held with decode := some (forward held i) }, cpu)

end Hazard

end FiveStage
