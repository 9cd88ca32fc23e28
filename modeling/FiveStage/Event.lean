import FiveStage.InFlight

/-
  Events — what a run reports on the way, beside its result

  An event is a fact, with the values that belong to it. Its level says how
  much detail a reader must have asked for to see it; its text is the line
  that is shown. Which operation reports which events is the business of
  `Journal`.
-/

namespace FiveStage

/-- How much detail a reader asks for. -/
inductive Level where
  | off | error | warn | info | debug | trace
  deriving DecidableEq, Repr

namespace Level

def all : List Level := [off, error, warn, info, debug, trace]

def rank : Level → Nat
  | off => 0 | error => 1 | warn => 2 | info => 3 | debug => 4 | trace => 5

def name : Level → String
  | off => "OFF" | error => "ERROR" | warn => "WARN" | info => "INFO" | debug => "DEBUG"
  | trace => "TRACE"

end Level

inductive Event where
  /-- A word was fetched. -/
  | fetched (pc raw : Word)
  | decoded (i : InFlight)
  /-- The opcode of a word is not supported. -/
  | dropped (raw pc : Word)
  /-- An instruction is executed with its operands. -/
  | executed (i : InFlight)
  | redirected (pc target : Word)
  | loaded (address value : Word)
  | stored (address value : Word)
  /-- One instruction has been run from start to end. -/
  | advanced (pc next : Word)
  | cycleStarted (pc : Word) (stall : Bool) (occupancy : List (Option Word))
  /-- A branch or jump was written back while fetching was held. -/
  | released
  /-- The instruction fetched behind a branch or jump was dropped. -/
  | squashed (i : InFlight)
  /-- An instruction waits for a load. -/
  | interlocked (i : InFlight)
  | imageLoaded (words bytes : Nat)
  | entryPoint (pc : Word)
  | segmentLoading (address memorySize fileSize : Word)
  /-- A run ended, of its own accord or at its limit. -/
  | stopped (cycles : Nat) (pc : Word) (finished : Bool)
  deriving DecidableEq, Repr

namespace Event

def level : Event → Level
  | dropped _ _ => .warn
  | imageLoaded _ _ | entryPoint _ | segmentLoading _ _ _ | stopped _ _ _ => .info
  | redirected _ _ | advanced _ _ | cycleStarted _ _ _ | released | squashed _ | interlocked _ =>
    .debug
  | fetched _ _ | decoded _ | executed _ | loaded _ _ | stored _ _ => .trace

/-- Whether a reader who asked for `threshold` sees the event. -/
def visible (threshold : Level) (e : Event) : Bool := e.level.rank ≤ threshold.rank

/-- One slot's address, bare, or a mark that the slot is empty. -/
def slotText : Option Word → String
  | some pc => "Some(" ++ Word.bareHex pc ++ ")"
  | none => "None"

def text : Event → String
  | fetched pc raw => "IF " ++ Word.hex pc ++ ": " ++ Word.hex raw
  | decoded i => "ID " ++ i.text
  | dropped raw pc =>
    "Dropping unsupported instruction " ++ Word.hex raw ++ " at PC=" ++ Word.hex pc
  | executed i =>
    "EX " ++ i.text ++ "; rs1: " ++ Word.hex i.rs1Value ++ "; rs2: " ++ Word.hex i.rs2Value
  | redirected pc target => Word.hex pc ++ " redirects to " ++ Word.hex target
  | loaded address value => "MEM load " ++ Word.hex address ++ " -> " ++ Word.hex value
  | stored address value => "MEM store " ++ Word.hex address ++ " <- " ++ Word.hex value
  | advanced pc next => "PC: " ++ Word.hex pc ++ " -> " ++ Word.hex next
  | cycleStarted pc stall occupancy =>
    "New cycle; PC: " ++ Word.hex pc ++ "; stall: " ++ toString stall ++ "; slots: ["
      ++ ", ".intercalate (occupancy.map slotText) ++ "]"
  | released => "Branch retired; releasing fetch"
  | squashed i => "Control hazard; dropping " ++ i.text
  | interlocked i => "Load-use interlock on " ++ i.text
  | imageLoaded words bytes =>
    "Loaded " ++ toString words ++ " words (" ++ toString bytes ++ " bytes of memory)"
  | entryPoint pc => "Initial PC: " ++ Word.hex pc
  | segmentLoading address memorySize fileSize =>
    "Loading segment at " ++ Word.hex address ++ ": 0x" ++ Word.bareHex memorySize
      ++ " bytes (0x" ++ Word.bareHex fileSize ++ " from file)"
  | stopped cycles pc finished =>
    "Stopped after " ++ toString cycles ++ " cycles at PC=" ++ Word.hex pc
      ++ (if finished then "" else " (cycle limit)")

/-- The event as a line of a log. -/
def line (e : Event) : String := e.level.name ++ " " ++ e.text

end Event

end FiveStage
