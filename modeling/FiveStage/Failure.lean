import FiveStage.Fault
import FiveStage.Elf
import FiveStage.Image
import FiveStage.FileError

/-
  Failures — everything that can keep a program from being loaded, run or
  traced, and how it is said

  A failure has two wordings: `message`, a sentence for a reader, and
  `diagnostic`, the nested form that the command line prints.
-/

namespace FiveStage

/-- A request that no run can satisfy. -/
inductive ConfigError where
  | noMemory
  /-- Sequential execution has no slots to trace. -/
  | traceNeedsPipeline
  deriving DecidableEq, Repr

def ConfigError.message : ConfigError → String
  | .noMemory => "memory must hold at least one word"
  | .traceNeedsPipeline => "pipeline traces need the pipelined implementation"

/-- Why an executable file was not loaded. -/
inductive ElfError where
  | defective (path : String) (d : Elf.Defect)
  | foreignMachine (machine : Nat)
  /-- A segment reaches past the last address. -/
  | addressSpace (address : Word)
  deriving DecidableEq, Repr

namespace ElfError

def message : ElfError → String
  | defective path d => "Failed to parse ELF file \x27" ++ path ++ "\x27: " ++ d.message
  | foreignMachine machine => "Invalid ELF machine type: " ++ toString machine
  | addressSpace address => "Segment does not fit in memory: " ++ Word.hex address

def diagnostic : ElfError → String
  | defective path d => "ParseError(\"" ++ path ++ "\", \"" ++ d.message ++ "\")"
  | foreignMachine machine => "InvalidMachine(" ++ toString machine ++ ")"
  | addressSpace address => "AddressOutOfBounds(" ++ toString address.toNat ++ ")"

end ElfError

inductive SimError where
  | elf (e : ElfError)
  | memory (e : OutOfBounds)
  /-- The program file could not be read, or the rest of a trace was refused. -/
  | file (e : FileError)
  /-- A stream broke off. -/
  | stream (text : String)
  /-- The trace file could not be created, or a block of it was refused. -/
  | trace (e : FileError)
  | config (e : ConfigError)
  deriving DecidableEq, Repr

namespace SimError

def message : SimError → String
  | elf e => "Failed to load ELF file: " ++ e.message
  | memory e => "Memory error: " ++ e.message
  | file e => "IO error: " ++ e.message
  | stream text => "IO error: " ++ text
  | trace e => "Failed to write pipeline trace: " ++ e.message
  | config e => "Invalid configuration: " ++ e.message

def diagnostic : SimError → String
  | elf e => "ElfLoadError(" ++ e.diagnostic ++ ")"
  | memory e =>
    "MemoryError(AccessError \x7b address: " ++ toString e.address.toNat ++ ", kind: OutOfBounds \x7d)"
  | file e => "IoError(" ++ e.diagnostic ++ ")"
  | stream text => "IoError(Custom \x7b kind: Other, error: \"" ++ text ++ "\" \x7d)"
  | trace e => "TraceError(Error(Io(" ++ e.diagnostic ++ ")))"
  | config e => "ConfigError(\"" ++ e.message ++ "\")"

/-- An obstacle to loading a raw image, as a failure. -/
def ofObstacle : Image.Obstacle → SimError
  | .memory e => memory e
  | .stream text => stream text

end SimError

/-- How a run goes wrong: it is refused, the machine faults on the way, or the
host has no memory for it. -/
inductive Failure where
  | error (e : SimError)
  | fault (f : Fault)
  /-- So many bytes are more than the host has. -/
  | exhausted (bytes : Nat)
  deriving DecidableEq, Repr

def Failure.message : Failure → String
  | .error e => e.message
  | .fault f => f.message
  | .exhausted bytes => "memory allocation of " ++ toString bytes ++ " bytes failed"

end FiveStage
