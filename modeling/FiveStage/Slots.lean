import FiveStage.InFlight

/-
  Slots — the five places of the pipeline

  A slot holds the instruction that completed its stage in the last cycle, or
  nothing.
-/

namespace FiveStage

structure Slots where
  fetch : Option InFlight
  decode : Option InFlight
  execute : Option InFlight
  memory : Option InFlight
  writeBack : Option InFlight
  deriving DecidableEq, Repr

namespace Slots

def empty : Slots := ⟨none, none, none, none, none⟩

/-- The occupants from the youngest to the oldest. -/
def toList (s : Slots) : List (Option InFlight) :=
  [s.fetch, s.decode, s.execute, s.memory, s.writeBack]

def isEmpty (s : Slots) : Bool := s.toList.all Option.isNone

/-- The address of each occupant. -/
def occupancy (s : Slots) : List (Option Word) :=
  s.toList.map (Option.map InFlight.pc)

end Slots

/-- The slot that a stage fills. -/
def Slots.at (slots : Slots) : Stage → Option InFlight
  | .fetch => slots.fetch
  | .decode => slots.decode
  | .execute => slots.execute
  | .memory => slots.memory
  | .writeBack => slots.writeBack

end FiveStage
