import FiveStage.InFlight
import FiveStage.Registers
import FiveStage.Memory

/-
  Fetching and decoding — how an instruction gets its word and its operands

  A zero word means that there is nothing to run. Decoding looks at the word
  alone and samples the source registers; an instruction without a source
  carries zero in its place. A word with an unsupported opcode decodes to
  nothing.
-/

namespace FiveStage

namespace InFlight

def fetch (mem : Memory) (pc : Word) : Except Fault (Option InFlight) := do
  let raw ← mem.load pc
  return if raw = 0 then none else some (fetched raw pc)

/-- The value of a source field, zero where the format has none. -/
def sample (regs : Registers) (r : Option Word) : Word :=
  match r with
  | some r => regs.get (r.setWidth 5)
  | none => 0

/-- The decoding of the word at hand; nothing else of the record is kept. -/
def decode? (i : InFlight) (regs : Registers) : Option InFlight :=
  (Opcode.ofWord? i.raw).map fun opcode =>
    let fields := Fields.ofWord opcode.format i.raw
    { raw := i.raw
      pc := i.pc
      stage := .decode
      opcode := some opcode
      format := some opcode.format
      fields
      rs1Value := sample regs fields.rs1
      rs2Value := sample regs fields.rs2
      access := none
      result := none }

end InFlight

end FiveStage
