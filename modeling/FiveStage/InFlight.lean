import FiveStage.Encoding

/-
  Instructions in flight — what the stages know about one fetched word

  A record starts with a word and the address it came from. Decoding adds the
  opcode, the format, the fields and the operand values; execution adds what is
  still to be done to memory and to the registers. `stage` is the last stage
  the instruction completed.
-/

namespace FiveStage

/-- The five stages, in the order an instruction passes them. -/
inductive Stage where
  | fetch | decode | execute | memory | writeBack
  deriving DecidableEq, Repr

namespace Stage

def all : List Stage := [fetch, decode, execute, memory, writeBack]

def name : Stage → String
  | fetch => "Fetch"
  | decode => "Decode"
  | execute => "Execute"
  | memory => "Memory"
  | writeBack => "WriteBack"

end Stage

inductive AccessKind where
  | load | store
  deriving DecidableEq, Repr

namespace AccessKind

def all : List AccessKind := [load, store]

def name : AccessKind → String
  | load => "Load"
  | store => "Store"

end AccessKind

/-- A memory access that execution has prepared. For a load the mask says
which bits of the word are kept, for a store which bits of the old word
survive. -/
structure Access where
  kind : AccessKind
  address : Word
  data : Word
  mask : Word
  signed : Bool
  deriving DecidableEq, Repr

/-- A register write that execution has prepared; a load's value is filled in
when memory has been read. -/
structure RegWrite where
  dest : Word
  value : Word
  deriving DecidableEq, Repr

structure InFlight where
  raw : Word
  pc : Word
  stage : Stage
  opcode : Option Opcode
  format : Option Format
  fields : Fields
  rs1Value : Word
  rs2Value : Word
  access : Option Access
  result : Option RegWrite
  deriving DecidableEq, Repr

namespace InFlight

/-- A word just fetched from `pc`. -/
def fetched (raw pc : Word) : InFlight :=
  { raw, pc
    stage := .fetch
    opcode := none
    format := none
    fields := .empty
    rs1Value := 0
    rs2Value := 0
    access := none
    result := none }

def isControlFlow (i : InFlight) : Bool := i.opcode.any Opcode.isControlFlow

def isLoad (i : InFlight) : Bool := i.opcode == some .load

theorem isControlFlow_iff {i : InFlight} :
    i.isControlFlow = true ↔
      i.opcode = some .branch ∨ i.opcode = some .jal ∨ i.opcode = some .jalr := by
  unfold isControlFlow
  cases i.opcode with
  | none => simp
  | some o => simp [Opcode.isControlFlow_iff]

theorem isLoad_iff {i : InFlight} : i.isLoad = true ↔ i.opcode = some .load := beq_iff_eq

/-- A register that is really read: x0 reads zero whatever was written. -/
def nonzeroSource (r : Option Word) : Option Word := r.filter (· != 0)

def source1 (i : InFlight) : Option Word := nonzeroSource i.fields.rs1

def source2 (i : InFlight) : Option Word := nonzeroSource i.fields.rs2

/-- Address, opcode if known, and word. -/
def text (i : InFlight) : String :=
  match i.opcode with
  | some o => Word.hex i.pc ++ ": " ++ o.name ++ " (" ++ Word.hex i.raw ++ ")"
  | none => Word.hex i.pc ++ ": " ++ Word.hex i.raw

end InFlight

end FiveStage
