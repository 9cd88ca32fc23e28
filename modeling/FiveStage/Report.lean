import FiveStage.State

/-
  Reports — the register file as a table and the screen as text
-/

namespace FiveStage

namespace Report

/-- Right-aligned in a column of `width` characters. -/
def padLeft (width : Nat) (s : String) : String :=
  String.ofList (List.replicate (width - s.length) ' ') ++ s

def registerText (index : Nat) (name : String) (value : Word) : String :=
  padLeft 8 ("x" ++ toString index ++ "/" ++ name) ++ " = " ++ Word.hex value

/-- The registers with their names, four to a line, then the program counter. -/
def registers (cpu : Cpu) : String :=
  let entries := (cpu.regs.toList.zip Registers.abiNames).zipIdx.map fun ((value, name), i) =>
    registerText i name value ++ (if i % 4 = 3 then "\n" else " ")
  String.join entries ++ "      pc = " ++ Word.hex cpu.pc ++ "\n"

/-! ## The screen -/

def screenAddress : Word := 30032

def screenWidth : Nat := 64

def screenHeight : Nat := 32

/-- Whether a pixel is lit: its word is 1. A pixel outside memory is dark. -/
def lit (mem : Memory) (x y : Nat) : Bool :=
  match mem.read (screenAddress + BitVec.ofNat 32 (4 * (y * screenWidth + x))) with
  | .ok w => w == 1
  | .error _ => false

def screen (mem : Memory) : String :=
  String.join <| (List.range screenHeight).map fun y =>
    String.ofList ((List.range screenWidth).map fun x => if lit mem x y then '#' else '.') ++ "\n"

end Report

end FiveStage
