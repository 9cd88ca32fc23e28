import Mathlib.Algebra.Group.Int.Defs
import Mathlib.Algebra.Group.Nat.Defs

/-
  RV32I — what an instruction word does, on numbers

  The instruction set as its manual describes it. A word is a number, and its fields
  are quotients and remainders of it; a register holds a number below `2 ^ 32`, and
  memory is a row of bytes in which a number stands with its lowest byte first. The
  thirty-seven instructions here are the integer instructions without `fence`,
  `ecall` and `ebreak`: any other word has no meaning, and the answer is `none`.

  An implementation may follow the manual less closely in a few places. These are the
  fields of a `Dialect`: `Dialect.standard` is the manual's own, and
  `Dialect.fiveStage` says where the machine of this library departs from it.
  `Ordinary` describes the steps on which they agree, which is
  `step?_fiveStage_of_ordinary`.

  Nothing in this module refers to a machine.
-/

namespace FiveStage

namespace Rv32i

/-! ## Numbers -/

/-- The number that the bits `lo` to `lo + width - 1` of a word spell. -/
def field (w lo width : Nat) : Nat := w / 2 ^ lo % 2 ^ width

/-- The lowest `width` bits of a number in two's complement. -/
def signed (width n : Nat) : Int := Int.bmod n (2 ^ width)

/-- A number as a register holds it. -/
def wrap (z : Int) : Nat := (z % (2 ^ 32 : Nat)).toNat

def truth (p : Prop) [Decidable p] : Int := if p then 1 else 0

/-! ## Fields of a word -/

def opcode (w : Nat) : Nat := field w 0 7

def funct3 (w : Nat) : Nat := field w 12 3

def funct7 (w : Nat) : Nat := field w 25 7

def rd (w : Nat) : Nat := field w 7 5

def immI (w : Nat) : Nat := field w 20 12

def immS (w : Nat) : Nat := field w 25 7 * 2 ^ 5 + field w 7 5

def immB (w : Nat) : Nat :=
  field w 31 1 * 2 ^ 12 + field w 7 1 * 2 ^ 11 + field w 25 6 * 2 ^ 5 + field w 8 4 * 2

def immU (w : Nat) : Nat := field w 12 20 * 2 ^ 12

def immJ (w : Nat) : Nat :=
  field w 31 1 * 2 ^ 20 + field w 12 8 * 2 ^ 12 + field w 20 1 * 2 ^ 11 + field w 21 10 * 2

/-! ## Operations -/

/-- The ten operations on two registers. -/
def registerOp? (funct3 funct7 a b : Nat) : Option Int :=
  match funct3, funct7 with
  | 0, 0x00 => some (a + b)
  | 0, 0x20 => some (a - b : Int)
  | 1, 0x00 => some (a * 2 ^ (b % 32) : Nat)
  | 2, 0x00 => some (truth (signed 32 a < signed 32 b))
  | 3, 0x00 => some (truth (a < b))
  | 4, 0x00 => some (a ^^^ b : Nat)
  | 5, 0x00 => some (a / 2 ^ (b % 32) : Nat)
  | 5, 0x20 => some ((signed 32 a).fdiv (2 ^ (b % 32)))
  | 6, 0x00 => some (a ||| b : Nat)
  | 7, 0x00 => some (a &&& b : Nat)
  | _, _ => none

/-- The nine operations on a register and a twelve-bit immediate. Shifts have their
amount in the low five bits of the immediate, and a selector in the other seven. -/
def immediateOp? (funct3 imm a : Nat) : Option Int :=
  match funct3 with
  | 0 => some (a + signed 12 imm)
  | 2 => some (truth (signed 32 a < signed 12 imm))
  | 3 => some (truth (a < wrap (signed 12 imm)))
  | 4 => some (a ^^^ wrap (signed 12 imm) : Nat)
  | 6 => some (a ||| wrap (signed 12 imm) : Nat)
  | 7 => some (a &&& wrap (signed 12 imm) : Nat)
  | 1 => if imm / 32 = 0x00 then some (a * 2 ^ (imm % 32) : Nat) else none
  | 5 =>
    if imm / 32 = 0x00 then some (a / 2 ^ (imm % 32) : Nat)
    else if imm / 32 = 0x20 then some ((signed 32 a).fdiv (2 ^ (imm % 32)))
    else none
  | _ => none

/-- The six conditions of a branch. -/
def condition? (funct3 a b : Nat) : Option Bool :=
  match funct3 with
  | 0 => some (a = b)
  | 1 => some (a ≠ b)
  | 4 => some (signed 32 a < signed 32 b)
  | 5 => some (signed 32 b ≤ signed 32 a)
  | 6 => some (a < b)
  | 7 => some (b ≤ a)
  | _ => none

/-- How many bytes a load reads, and whether they spell a signed number. -/
def load? (funct3 : Nat) : Option (Nat × Bool) :=
  match funct3 with
  | 0 => some (1, true)
  | 1 => some (2, true)
  | 2 => some (4, true)
  | 4 => some (1, false)
  | 5 => some (2, false)
  | _ => none

/-- How many bytes a store writes. -/
def store? (funct3 : Nat) : Option Nat :=
  match funct3 with
  | 0 => some 1
  | 1 => some 2
  | 2 => some 4
  | _ => none

/-! ## The state of a hart -/

structure Hart where
  pc : Nat
  reg : Fin 32 → Nat
  byte : Nat → Nat

namespace Hart

/-- The first operand. -/
def rs1 (h : Hart) (w : Nat) : Nat := h.reg (Fin.ofNat 32 (field w 15 5))

/-- The second operand. -/
def rs2 (h : Hart) (w : Nat) : Nat := h.reg (Fin.ofNat 32 (field w 20 5))

/-- The number that `n` bytes from an address on spell, lowest byte first. -/
def number (h : Hart) (a : Nat) : Nat → Nat
  | 0 => 0
  | n + 1 => h.byte a + 256 * h.number (a + 1) n

/-- The number that a load of `n` bytes delivers. -/
def load (h : Hart) (a n : Nat) (sign : Bool) : Int :=
  if sign then signed (8 * n) (h.number a n) else h.number a n

/-- A register written; register 0 stays zero. -/
def write (h : Hart) (r : Nat) (z : Int) : Hart :=
  { h with reg := fun q => if q.val = r ∧ r ≠ 0 then wrap z else h.reg q }

/-- The lowest `n` bytes of a number written from an address on. -/
def put (h : Hart) (a n v : Nat) : Hart :=
  { h with byte := fun b => if a ≤ b ∧ b < a + n then v / 256 ^ (b - a) % 256 else h.byte b }

def jump (h : Hart) (z : Int) : Hart := { h with pc := wrap z }

/-- Past the instruction. -/
def advance (h : Hart) : Hart := h.jump (h.pc + 4)

/-- The address of a load or store of a width there is. -/
def access? (h : Hart) (w : Nat) : Option Nat :=
  match opcode w with
  | 0x03 => (load? (funct3 w)).map fun _ => wrap (h.rs1 w + signed 12 (immI w))
  | 0x23 => (store? (funct3 w)).map fun _ => wrap (h.rs1 w + signed 12 (immS w))
  | _ => none

end Hart

/-! ## Dialects -/

structure Dialect where
  /-- The width from which branch offsets are extended. -/
  branchWidth : Nat
  /-- The width from which the offsets of jumps are extended. -/
  jumpWidth : Nat
  /-- The width from which upper immediates are extended. -/
  upperWidth : Nat
  /-- Whether a jump through a register clears bit 0 of its target. -/
  evenTarget : Bool
  /-- Whether a jump through a register is told by its function code as well. -/
  jumpCode : Bool
  /-- Whether an address names a byte, or the word that the byte lies in. -/
  bytewise : Bool

namespace Dialect

def standard : Dialect := ⟨13, 21, 32, true, true, true⟩

def fiveStage : Dialect := ⟨12, 20, 31, false, false, false⟩

/-- The byte address that an access starts at. -/
def place (d : Dialect) (a : Nat) : Nat := if d.bytewise then a else a / 4 * 4

/-- The target of a jump through a register. -/
def target (d : Dialect) (z : Int) : Int := if d.evenTarget then z - z % 2 else z

end Dialect

/-! ## Instructions -/

/-- A hart after an instruction word, if the word is an instruction. -/
def exec? (d : Dialect) (w : Nat) (h : Hart) : Option Hart :=
  match opcode w with
  | 0x33 => (registerOp? (funct3 w) (funct7 w) (h.rs1 w) (h.rs2 w)).map fun z =>
      h.advance.write (rd w) z
  | 0x13 => (immediateOp? (funct3 w) (immI w) (h.rs1 w)).map fun z => h.advance.write (rd w) z
  | 0x03 => (load? (funct3 w)).map fun (n, sign) =>
      h.advance.write (rd w) (h.load (d.place (wrap (h.rs1 w + signed 12 (immI w)))) n sign)
  | 0x23 => (store? (funct3 w)).map fun n =>
      h.advance.put (d.place (wrap (h.rs1 w + signed 12 (immS w)))) n (h.rs2 w)
  | 0x63 => (condition? (funct3 w) (h.rs1 w) (h.rs2 w)).map fun taken =>
      if taken then h.jump (h.pc + signed d.branchWidth (immB w)) else h.advance
  | 0x6f => some ((h.write (rd w) (h.pc + 4)).jump (h.pc + signed d.jumpWidth (immJ w)))
  | 0x67 =>
    if d.jumpCode ∧ funct3 w ≠ 0 then none
    else some ((h.write (rd w) (h.pc + 4)).jump (d.target (h.rs1 w + signed 12 (immI w))))
  | 0x37 => some (h.advance.write (rd w) (signed d.upperWidth (immU w)))
  | 0x17 => some (h.advance.write (rd w) (h.pc + signed d.upperWidth (immU w)))
  | _ => none

/-- The word that is fetched. -/
def Hart.word (d : Dialect) (h : Hart) : Nat := h.number (d.place h.pc) 4

/-- A hart after the instruction at its program counter. -/
def step? (d : Dialect) (h : Hart) : Option Hart := exec? d (h.word d) h

/-! ## Where the dialects agree -/

/-- The steps on which `Dialect.fiveStage` is the standard: every address is that of a
word, offsets and upper immediates fit the narrower width, and a jump through a
register has its function code and an even target. -/
structure Ordinary (w : Nat) (h : Hart) : Prop where
  fetch : h.pc % 4 = 0
  access : ∀ a, h.access? w = some a → a % 4 = 0
  branch : opcode w = 0x63 → -2 ^ 11 ≤ signed 13 (immB w) ∧ signed 13 (immB w) < 2 ^ 11
  jump : opcode w = 0x6f → -2 ^ 19 ≤ signed 21 (immJ w) ∧ signed 21 (immJ w) < 2 ^ 19
  upper : opcode w = 0x37 ∨ opcode w = 0x17 →
    -2 ^ 30 ≤ signed 32 (immU w) ∧ signed 32 (immU w) < 2 ^ 30
  code : opcode w = 0x67 → funct3 w = 0
  target : opcode w = 0x67 → (h.rs1 w + signed 12 (immI w)) % 2 = 0

/-- A number that fits a narrower width is the same when extended from there. -/
theorem signed_of_fits {k n v : Nat} (hk : k ≤ n) (h : -((2 ^ k : Nat) : Int) ≤ signed n v * 2)
    (h' : signed n v * 2 < (2 ^ k : Nat)) : signed k v = signed n v := by
  have hd : signed k v = Int.bmod (signed n v) (2 ^ k) :=
    (Int.bmod_bmod_of_dvd (Nat.pow_dvd_pow 2 hk)).symm
  rw [hd, Int.bmod_eq_of_le_mul_two h h']

theorem place_of_aligned (d : Dialect) {a : Nat} (h : a % 4 = 0) : d.place a = a := by
  unfold Dialect.place
  split
  · rfl
  · omega

/-- At an address of a word it does not matter who fetches. -/
theorem word_of_aligned (d : Dialect) {h : Hart} (hp : h.pc % 4 = 0) :
    h.word d = h.number h.pc 4 := by
  rw [Hart.word, place_of_aligned d hp]

theorem exec?_fiveStage_of_ordinary {w : Nat} {h : Hart} (ho : Ordinary w h) :
    exec? .fiveStage w h = exec? .standard w h := by
  unfold exec?
  split
  case h_1 | h_2 | h_10 => rfl
  case h_3 hop =>
    cases hl : load? (funct3 w) with
    | none => simp only [Option.map_none]
    | some l =>
      have ha := ho.access (wrap (h.rs1 w + signed 12 (immI w))) (by
        simp only [Hart.access?, hop, hl, Option.map_some])
      simp only [Option.map_some, place_of_aligned _ ha]
  case h_4 hop =>
    cases hs : store? (funct3 w) with
    | none => simp only [Option.map_none]
    | some n =>
      have ha := ho.access (wrap (h.rs1 w + signed 12 (immS w))) (by
        simp only [Hart.access?, hop, hs, Option.map_some])
      simp only [Option.map_some, place_of_aligned _ ha]
  case h_5 hop =>
    have hb : signed 12 (immB w) = signed 13 (immB w) := by
      have := ho.branch hop
      exact signed_of_fits (by decide) (by omega) (by omega)
    exact congrArg (fun z => (condition? (funct3 w) (h.rs1 w) (h.rs2 w)).map fun taken =>
      if taken then h.jump (h.pc + z) else h.advance) hb
  case h_6 hop =>
    have hj : signed 20 (immJ w) = signed 21 (immJ w) := by
      have := ho.jump hop
      exact signed_of_fits (by decide) (by omega) (by omega)
    exact congrArg (fun z => some ((h.write (rd w) (h.pc + 4)).jump (h.pc + z))) hj
  case h_7 hop =>
    have he : (h.rs1 w + signed 12 (immI w)) % 2 = 0 := ho.target hop
    have hf := ho.code hop
    simp [Dialect.fiveStage, Dialect.standard, Dialect.target, he, hf]
  case h_8 hop =>
    have hu : signed 31 (immU w) = signed 32 (immU w) := by
      have := ho.upper (.inl hop)
      exact signed_of_fits (by decide) (by omega) (by omega)
    exact congrArg (fun z => some (h.advance.write (rd w) z)) hu
  case h_9 hop =>
    have hu : signed 31 (immU w) = signed 32 (immU w) := by
      have := ho.upper (.inr hop)
      exact signed_of_fits (by decide) (by omega) (by omega)
    exact congrArg (fun z => some (h.advance.write (rd w) (h.pc + z))) hu

/-- **On ordinary steps the machine of this library follows the standard.** -/
theorem step?_fiveStage_of_ordinary {h : Hart} (ho : Ordinary (h.number h.pc 4) h) :
    step? .fiveStage h = step? .standard h := by
  rw [step?, step?, word_of_aligned _ ho.fetch, word_of_aligned _ ho.fetch,
    exec?_fiveStage_of_ordinary ho]

end Rv32i

end FiveStage
