import FiveStage.Word

/-
  Instruction words — opcodes, formats, and the fields a format carries

  Nine opcodes are supported; each has one of six formats, and the format
  alone says which fields a word has and where their bits lie. Immediates are
  kept as they are encoded, not sign-extended: the branch and jump formats
  include their implicit zero bit, the upper format is not shifted.
-/

namespace FiveStage

inductive Opcode where
  | lui | auipc | jal | jalr | branch | load | store | op | opImm
  deriving DecidableEq, Repr

inductive Format where
  | r | i | s | b | u | j
  deriving DecidableEq, Repr

namespace Opcode

def all : List Opcode :=
  [lui, auipc, jal, jalr, branch, load, store, op, opImm]

def name : Opcode → String
  | lui => "Lui"
  | auipc => "AuiPc"
  | jal => "Jal"
  | jalr => "Jalr"
  | branch => "Branch"
  | load => "Load"
  | store => "Store"
  | op => "Op"
  | opImm => "OpImm"

/-- The opcode in the low seven bits of a word, if it is a supported one. -/
def ofWord? (w : Word) : Option Opcode :=
  match Word.bits w 0 6 with
  | 0x37#32 => some lui
  | 0x17#32 => some auipc
  | 0x6f#32 => some jal
  | 0x67#32 => some jalr
  | 0x63#32 => some branch
  | 0x03#32 => some load
  | 0x23#32 => some store
  | 0x33#32 => some op
  | 0x13#32 => some opImm
  | _ => none

def format : Opcode → Format
  | lui | auipc => .u
  | jal => .j
  | jalr | load | opImm => .i
  | branch => .b
  | store => .s
  | op => .r

/-- Branches and jumps may move the program counter. -/
def isControlFlow : Opcode → Bool
  | branch | jal | jalr => true
  | _ => false

theorem isControlFlow_iff {o : Opcode} :
    o.isControlFlow = true ↔ o = .branch ∨ o = .jal ∨ o = .jalr := by
  cases o <;> decide

end Opcode

namespace Format

def all : List Format := [r, i, s, b, u, j]

def name : Format → String
  | r => "R" | i => "I" | s => "S" | b => "B" | u => "U" | j => "J"

end Format

/-- What an instruction word says beside its opcode. A field that the format
lacks is `none`. -/
structure Fields where
  rs1 : Option Word
  rs2 : Option Word
  rd : Option Word
  funct3 : Option Word
  funct7 : Option Word
  imm : Option Word
  deriving DecidableEq, Repr

namespace Fields

/-- No field at all: a word that has not been decoded. -/
def empty : Fields := ⟨none, none, none, none, none, none⟩

def rdOf (w : Word) : Word := Word.bits w 7 11

def funct3Of (w : Word) : Word := Word.bits w 12 14

def rs1Of (w : Word) : Word := Word.bits w 15 19

def rs2Of (w : Word) : Word := Word.bits w 20 24

def funct7Of (w : Word) : Word := Word.bits w 25 31

/-- Bits 20 to 31. Shift amounts and the choice of right shift stay inside. -/
def immI (w : Word) : Word := Word.bits w 20 31

/-- A store offset: bits 25 to 31 above bits 7 to 11. -/
def immS (w : Word) : Word :=
  ((w >>> 20) &&& 0xfe0) ||| ((w >>> 7) &&& 0x1f)

/-- A branch offset: bit 31, bit 7, bits 25 to 30, bits 8 to 11, and a zero. -/
def immB (w : Word) : Word :=
  ((w >>> 19) &&& 0x1000) ||| ((w <<< 4) &&& 0x800)
    ||| ((w >>> 20) &&& 0x7e0) ||| ((w >>> 7) &&& 0x1e)

/-- The upper twenty bits, moved down. -/
def immU (w : Word) : Word := Word.bits w 12 31

/-- A jump offset: bit 31, bits 12 to 19, bit 20, bits 21 to 30, and a zero. -/
def immJ (w : Word) : Word :=
  ((w >>> 11) &&& 0x100000) ||| (w &&& 0xff000)
    ||| ((w >>> 9) &&& 0x800) ||| ((w >>> 20) &&& 0x7fe)

/-- The fields of a word read in a format. -/
def ofWord (f : Format) (w : Word) : Fields :=
  match f with
  | .r =>
    { rs1 := some (rs1Of w), rs2 := some (rs2Of w), rd := some (rdOf w),
      funct3 := some (funct3Of w), funct7 := some (funct7Of w), imm := none }
  | .i =>
    { rs1 := some (rs1Of w), rs2 := none, rd := some (rdOf w),
      funct3 := some (funct3Of w), funct7 := none, imm := some (immI w) }
  | .s =>
    { rs1 := some (rs1Of w), rs2 := some (rs2Of w), rd := none,
      funct3 := some (funct3Of w), funct7 := none, imm := some (immS w) }
  | .b =>
    { rs1 := some (rs1Of w), rs2 := some (rs2Of w), rd := none,
      funct3 := some (funct3Of w), funct7 := none, imm := some (immB w) }
  | .u =>
    { rs1 := none, rs2 := none, rd := some (rdOf w),
      funct3 := none, funct7 := none, imm := some (immU w) }
  | .j =>
    { rs1 := none, rs2 := none, rd := some (rdOf w),
      funct3 := none, funct7 := none, imm := some (immJ w) }

end Fields

end FiveStage
