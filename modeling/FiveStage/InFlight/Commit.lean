import FiveStage.InFlight
import FiveStage.Registers
import FiveStage.Memory

/-
  Memory access and write-back — how an executed instruction takes effect

  Accesses are word by word: a narrow load takes the low end of the word that
  holds its address, a narrow store replaces that end. A store reads the word
  it merges into, so an address outside memory is a load fault for both kinds.
-/

namespace FiveStage

/-- The word an access moves: what a load delivers, or the merged word that a
store puts back. -/
def Access.word (a : Access) (mem : Memory) : Except Fault Word := do
  let old ← mem.load a.address
  match a.kind with
  | .load =>
    let kept := old &&& a.mask
    if a.signed then Word.signExtendFrom kept (Word.popcount a.mask) else return kept
  | .store => return (old &&& a.mask) ||| a.data

namespace InFlight

/-- The instruction with a loaded word as its result, if it has one. -/
def receiveLoaded (i : InFlight) (w : Word) : InFlight :=
  { i with result := i.result.map (fun r => { r with value := w }) }

def accessMemory (i : InFlight) (mem : Memory) : Except Fault (InFlight × Memory) := do
  let done := { i with stage := .memory }
  match i.access with
  | none => return (done, mem)
  | some a =>
    let w ← a.word mem
    match a.kind with
    | .load => return (done.receiveLoaded w, mem)
    | .store => return (done, ← mem.store a.address w)

def writeBack (i : InFlight) (regs : Registers) : Except Fault (InFlight × Registers) := do
  let done := { i with stage := .writeBack }
  match i.result with
  | none => return (done, regs)
  | some r => return (done, ← regs.write r.dest r.value)

end InFlight

end FiveStage
