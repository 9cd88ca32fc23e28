import FiveStage.State
import FiveStage.Failure

/-
  Loading executables — segments laid into memory byte by byte

  The program counter is set to the entry point as soon as the machine is
  known to be right; then the loadable segments are written in the order of
  their table. A segment is refused as a whole if it reaches past the last
  address or past the end of the file; else its bytes are written one by one
  until memory refuses one. Whatever has been done by then stays done.
-/

namespace FiveStage

namespace Memory

/-- Writes `count` bytes from an address on: those given, then zeros. -/
def writeBytes (m : Memory) : (count : Nat) → Word → List Byte → Memory × Option OutOfBounds
  | 0, _, _ => (m, none)
  | count + 1, address, bs =>
    match m.writeByte address (bs.headD 0) with
    | .ok m => m.writeBytes count (address + 1) bs.tail
    | .error e => (m, some e)

end Memory

namespace Elf

/-- Whether a segment ends before the address space does. -/
def Segment.addressable (s : Segment) : Bool :=
  !BitVec.uaddOverflow s.address s.memorySize

def Segment.load (s : Segment) (path : String) (file : List Byte) (mem : Memory) :
    Memory × Option SimError :=
  if !s.addressable then (mem, some (.elf (.addressSpace s.address)))
  else
    match slice? file s.offset s.fileSize.toNat with
    | none => (mem, some (.elf (.defective path (.segmentPastEnd s.address))))
    | some bs =>
      let (mem, e) := mem.writeBytes s.memorySize.toNat s.address bs
      (mem, e.map SimError.memory)

def loadSegments (path : String) (file : List Byte) :
    List Segment → Memory → Memory × Option SimError
  | [], mem => (mem, none)
  | s :: rest, mem =>
    match s.load path file mem with
    | (mem, none) => loadSegments path file rest mem
    | (mem, some e) => (mem, some e)

def header (path : String) (file : List Byte) : Except SimError Header :=
  match Header.ofFile file with
  | .error d => .error (.elf (.defective path d))
  | .ok h => if h.machine = riscv then .ok h else .error (.elf (.foreignMachine h.machine))

def loadableSegments (path : String) (file : List Byte) (h : Header) :
    Except SimError (List Segment) :=
  match h.segments file with
  | .error d => .error (.elf (.defective path d))
  | .ok segments => .ok (segments.filter Segment.isLoadable)

/-- Loads a file: the state afterwards, and what went wrong. -/
def load (path : String) (file : List Byte) (s : State) : State × Option SimError :=
  match header path file with
  | .error e => (s, some e)
  | .ok h =>
    let cpu := { s.cpu with pc := h.entry }
    match loadableSegments path file h with
    | .error e => ({ s with cpu }, some e)
    | .ok segments =>
      let (mem, e) := loadSegments path file segments s.mem
      ({ cpu, mem }, e)

end Elf

end FiveStage
