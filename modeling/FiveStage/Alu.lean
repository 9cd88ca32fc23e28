import FiveStage.Word

/-
  The arithmetic unit — sixteen operations on two words, and which of them a
  function code selects

  Comparisons answer 1 or 0. Shifts use the low five bits of the second
  operand. The three selectors take whole words: a code outside its field's
  range selects nothing.
-/

namespace FiveStage

inductive AluOp where
  | add | sub
  | and | or | xor
  | slt | sltu
  | sll | srl | sra
  | beq | bne | blt | bge | bltu | bgeu
  deriving DecidableEq, Repr

namespace AluOp

def all : List AluOp :=
  [add, sub, and, or, xor, slt, sltu, sll, srl, sra, beq, bne, blt, bge, bltu, bgeu]

def name : AluOp → String
  | add => "ADD" | sub => "SUB"
  | and => "AND" | or => "OR" | xor => "XOR"
  | slt => "SLT" | sltu => "SLTU"
  | sll => "SLL" | srl => "SRL" | sra => "SRA"
  | beq => "BEQ" | bne => "BNE" | blt => "BLT" | bge => "BGE" | bltu => "BLTU" | bgeu => "BGEU"

/-- A truth value as the unit puts it out. -/
def flag (b : Bool) : Word := if b then 1 else 0

/-- The shift amount that a word asks for. -/
def amount (w : Word) : Nat := w.toNat % 32

def eval : AluOp → Word → Word → Word
  | add, a, b => a + b
  | sub, a, b => a - b
  | and, a, b => a &&& b
  | or, a, b => a ||| b
  | xor, a, b => a ^^^ b
  | slt, a, b => flag (a.slt b)
  | sltu, a, b => flag (a.ult b)
  | sll, a, b => a <<< amount b
  | srl, a, b => a >>> amount b
  | sra, a, b => a.sshiftRight (amount b)
  | beq, a, b => flag (a == b)
  | bne, a, b => flag (a != b)
  | blt, a, b => flag (a.slt b)
  | bge, a, b => flag (!a.slt b)
  | bltu, a, b => flag (a.ult b)
  | bgeu, a, b => flag (!a.ult b)

/-- The operation of a register-register instruction. -/
def ofFunct? (funct3 funct7 : Word) : Option AluOp :=
  match funct3, funct7 with
  | 0#32, 0x00#32 => some add
  | 0#32, 0x20#32 => some sub
  | 1#32, 0x00#32 => some sll
  | 2#32, 0x00#32 => some slt
  | 3#32, 0x00#32 => some sltu
  | 4#32, 0x00#32 => some xor
  | 5#32, 0x00#32 => some srl
  | 5#32, 0x20#32 => some sra
  | 6#32, 0x00#32 => some or
  | 7#32, 0x00#32 => some and
  | _, _ => none

/-- The operation of a register-immediate instruction. Shifts are told apart
by the immediate's bits above the amount, read as a `funct7`. -/
def ofImmediate? (funct3 imm : Word) : Option AluOp :=
  match funct3 with
  | 0#32 => some add
  | 2#32 => some slt
  | 3#32 => some sltu
  | 4#32 => some xor
  | 6#32 => some or
  | 7#32 => some and
  | 1#32 | 5#32 => ofFunct? funct3 (imm >>> 5)
  | _ => none

/-- The comparison of a conditional branch. -/
def ofBranch? (funct3 : Word) : Option AluOp :=
  match funct3 with
  | 0#32 => some beq
  | 1#32 => some bne
  | 4#32 => some blt
  | 5#32 => some bge
  | 6#32 => some bltu
  | 7#32 => some bgeu
  | _ => none

end AluOp

end FiveStage
