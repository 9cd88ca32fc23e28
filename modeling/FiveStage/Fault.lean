import FiveStage.Word

/-
  Faults — why an operation of the machine cannot be carried out

  A fault is a cause, not a text: `Fault.message` is the one place that words
  it. Memory refuses an address with `OutOfBounds`; what was being done there
  tells a load fault from a store fault.
-/

namespace FiveStage

/-- No memory cell holds this address. -/
structure OutOfBounds where
  address : Word
  deriving DecidableEq, Repr

def OutOfBounds.message (e : OutOfBounds) : String :=
  "Memory access error at address " ++ Word.hex e.address
    ++ ": Attempted to access memory outside addressable range"

inductive Fault where
  /-- A read outside memory. -/
  | load (e : OutOfBounds)
  /-- A write outside memory. -/
  | store (e : OutOfBounds)
  /-- No memory can be as large as the one asked for. -/
  | capacity
  /-- There are 32 registers. -/
  | register (index : Word)
  /-- A bit range runs backwards or past bit 31. -/
  | bitRange
  /-- A sign bit is one of bits 0 to 31. -/
  | signWidth
  /-- A shift is by 0 to 31 places. -/
  | shiftLeft
  | shiftRight
  deriving DecidableEq, Repr

def Fault.message : Fault → String
  | .load e => "[read_word] " ++ e.message
  | .store e => "[write_word] " ++ e.message
  | .capacity => "capacity overflow"
  | .register index =>
    "index out of bounds: the len is 32 but the index is " ++ toString index.toNat
  | .bitRange => "assertion failed: start <= end && end < 32"
  | .signWidth => "assertion failed: (1..=32).contains(&significant_bits)"
  | .shiftLeft => "attempt to shift left with overflow"
  | .shiftRight => "attempt to shift right with overflow"

/-- Work that was broken off by a fault, and what it had come to by then. -/
structure Breakdown (σ : Type) where
  fault : Fault
  state : σ

/-- Bits `lo` to `hi` of a word, where they are a range of bits. -/
def Word.bitRange (w : Word) (lo hi : Nat) : Except Fault Word :=
  if lo ≤ hi ∧ hi < 32 then .ok (Word.bits w lo hi) else .error .bitRange

/-- Sign extension from a width that has a sign bit. -/
def Word.signExtendFrom (w : Word) (width : Nat) : Except Fault Word :=
  if 1 ≤ width ∧ width ≤ 32 then .ok (Word.signExtend w width) else .error .signWidth

/-- A shift by fewer places than a word has; the fault tells its direction. -/
def Word.shiftBy (move : Word → Nat → Word) (fault : Fault) (w : Word) (amount : Nat) :
    Except Fault Word :=
  if amount < 32 then .ok (move w amount) else .error fault

end FiveStage
