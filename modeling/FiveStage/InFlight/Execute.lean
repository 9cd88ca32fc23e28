import FiveStage.InFlight
import FiveStage.Alu

/-
  Execution — what an instruction is about to do, from its operands

  The format, with the opcode where a format serves several, chooses the
  effect: a register write, a memory access, a move of the program counter.
  An effect that an instruction lacks leaves what the record held before, so a
  function code that means nothing leaves the record as it was.

  Immediates are extended from bit 11 for loads, stores, arithmetic and
  branches, from bit 19 for jumps, and from bit 30 of the shifted word for
  upper immediates. The branch and jump fields are one bit wider than that:
  their top bit drops out.
-/

namespace FiveStage

namespace InFlight

/-- Bits kept by a load of each width, and whether the top one is a sign. -/
def loadWidth? (funct3 : Word) : Option (Word × Bool) :=
  match funct3 with
  | 0#32 => some (0xff, true)
  | 1#32 => some (0xffff, true)
  | 2#32 => some (0xffffffff, true)
  | 4#32 => some (0xff, false)
  | 5#32 => some (0xffff, false)
  | _ => none

/-- Bits that a store of each width replaces. -/
def storeWidth? (funct3 : Word) : Option Word :=
  match funct3 with
  | 0#32 => some 0xff
  | 1#32 => some 0xffff
  | 2#32 => some 0xffffffff
  | _ => none

/-- What execution of an instruction brings about. -/
structure Effect where
  access : Option Access
  result : Option RegWrite
  redirect : Option Word
  deriving DecidableEq, Repr

namespace Effect

def nothing : Effect := ⟨none, none, none⟩

/-- A register write and nothing else. -/
def writes (dest value : Word) : Effect :=
  { nothing with result := some ⟨dest, value⟩ }

end Effect

def rd (i : InFlight) : Word := i.fields.rd.getD 0

def funct3 (i : InFlight) : Word := i.fields.funct3.getD 0

def funct7 (i : InFlight) : Word := i.fields.funct7.getD 0

def imm (i : InFlight) : Word := i.fields.imm.getD 0

/-- The immediate as a twelve-bit signed offset. -/
def offset (i : InFlight) : Word := Word.signExtend i.imm 12

/-- Where execution continues if the instruction does not move it. -/
def following (i : InFlight) : Word := i.pc + 4

def registerEffect (i : InFlight) : Effect :=
  match AluOp.ofFunct? i.funct3 i.funct7 with
  | some op => .writes i.rd (op.eval i.rs1Value i.rs2Value)
  | none => .nothing

def immediateEffect (i : InFlight) : Effect :=
  match AluOp.ofImmediate? i.funct3 i.imm with
  | some op => .writes i.rd (op.eval i.rs1Value i.offset)
  | none => .nothing

/-- The register written is named now, its value only once memory is read. -/
def loadEffect (i : InFlight) : Effect :=
  match loadWidth? i.funct3 with
  | some (mask, signed) =>
    { access := some { kind := .load, address := i.rs1Value + i.offset, data := 0, mask, signed }
      result := some ⟨i.rd, 0⟩
      redirect := none }
  | none => .nothing

def storeEffect (i : InFlight) : Effect :=
  match storeWidth? i.funct3 with
  | some kept =>
    { access := some
        { kind := .store, address := i.rs1Value + i.offset, data := i.rs2Value &&& kept,
          mask := ~~~kept, signed := false }
      result := none
      redirect := none }
  | none => .nothing

/-- A jump through a register keeps bit 0 of its target. -/
def registerJumpEffect (i : InFlight) : Effect :=
  { access := none
    result := some ⟨i.rd, i.following⟩
    redirect := some (i.rs1Value + i.offset) }

def branchEffect (i : InFlight) : Effect :=
  match AluOp.ofBranch? i.funct3 with
  | some op =>
    if op.eval i.rs1Value i.rs2Value = 0 then .nothing
    else { Effect.nothing with redirect := some (i.pc + i.offset) }
  | none => .nothing

def jumpEffect (i : InFlight) : Effect :=
  { access := none
    result := some ⟨i.rd, i.following⟩
    redirect := some (i.pc + Word.signExtend i.imm 20) }

/-- The upper immediate, added to the address of the instruction for `auipc`. -/
def upperEffect (i : InFlight) (opcode : Opcode) : Effect :=
  let upper := Word.signExtend (i.imm <<< 12) 31
  match opcode with
  | .auipc => .writes i.rd (i.pc + upper)
  | _ => .writes i.rd upper

/-- The effect that a format and an opcode name. -/
def effectOf (i : InFlight) (format : Format) (opcode : Opcode) : Effect :=
  match format, opcode with
  | .r, _ => i.registerEffect
  | .i, .opImm => i.immediateEffect
  | .i, .load => i.loadEffect
  | .i, _ => i.registerJumpEffect
  | .s, _ => i.storeEffect
  | .b, _ => i.branchEffect
  | .j, _ => i.jumpEffect
  | .u, opcode => i.upperEffect opcode

/-- An instruction that has not been decoded has no effect. -/
def effect (i : InFlight) : Effect :=
  match i.opcode, i.format with
  | some opcode, some format => i.effectOf format opcode
  | _, _ => .nothing

/-- The instruction after execution, beside the new program counter if it
moves it. -/
def execute (i : InFlight) : InFlight × Option Word :=
  let e := i.effect
  ({ i with
      stage := .execute
      access := e.access.or i.access
      result := e.result.or i.result },
   e.redirect)

end InFlight

end FiveStage
