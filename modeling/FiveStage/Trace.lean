import FiveStage.Host
import FiveStage.Run

/-
  Traces — a table of what was in the pipeline after every cycle

  A trace is a header line and one record a cycle: the number of the cycle,
  the program counter, the stall flag and the address in each slot. No field
  contains a comma, so the fields are simply joined.

  The text is handed over in blocks, and what is left of it when the run is
  over; a block that is refused ends the run.
-/

namespace FiveStage

namespace Trace

/-- Fields with a comma between each two. -/
def join : List String → String
  | [] => ""
  | [field] => field
  | field :: next :: rest => field ++ "," ++ join (next :: rest)

def line (fields : List String) : String := join fields ++ "\n"

def header : String := line ["cycle", "pc", "stall", "IF", "ID", "EX", "MEM", "WB"]

/-- The address in a slot, or a dash. -/
def slotText : Option Word → String
  | some pc => Word.hex pc
  | none => "-"

/-- The fields of the record of a cycle that has left the machine as it is. -/
def fields (cycle : Nat) (m : Machine) : List String :=
  [toString cycle, Word.hex m.cpu.pc, toString m.cpu.stall] ++ m.slots.occupancy.map slotText

def record (cycle : Nat) (m : Machine) : String := line (fields cycle m)

def blockSize : Nat := 8192

/-- How much of a text is handed over: a full block is, as soon as one byte more
is written. -/
def handedSize (text : String) : Nat := (text.utf8ByteSize - 1) / blockSize * blockSize

/-- The part of a text that is handed over, and the part that is held back. A
trace has as many bytes as characters. -/
def handOver (text : String) : String × String :=
  let size := handedSize text
  if size = 0 then ("", text) else ((text.take size).toString, (text.drop size).toString)

def recorder (sink : Sink) : Onlooker Machine String FileError :=
  fun cycle m text =>
    let text := text ++ record cycle m
    (text, if 0 < handedSize text then sink.refusal? else none)

end Trace

end FiveStage
