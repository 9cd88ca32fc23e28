import FiveStage.Registers
import FiveStage.Memory

/-
  Architectural state — what a program can see: the program counter, the
  registers and memory

  `stall` belongs to the pipeline, which holds back fetching while a branch or
  jump is under way; executing one instruction at a time leaves it alone.
-/

namespace FiveStage

structure Cpu where
  pc : Word
  stall : Bool
  regs : Registers
  deriving DecidableEq

/-- Everything zero, nothing held back. -/
def Cpu.reset : Cpu := ⟨0, false, .zeroed⟩

structure State where
  cpu : Cpu
  mem : Memory

/-- Everything zero, with a memory of so many words. -/
def State.reset (capacity : Nat) : Except Fault State :=
  (Memory.allocate capacity).map fun mem => ⟨.reset, mem⟩

/-- Nothing to fetch: the word at the program counter is zero or outside
memory. -/
def State.nothingToFetch (s : State) : Bool :=
  match s.mem.read s.cpu.pc with
  | .ok w => w == 0
  | .error _ => true

end FiveStage
