import FiveStage.FileError
import FiveStage.Word

/-
  The host — what a program asks of the system that it runs on

  There are three questions: what a file holds, where text goes that is written
  to a file, and how much memory there is. A `Host` is any source of answers, so
  what depends on the system is a function of its host.
-/

namespace FiveStage

/-- Where text goes that is written to an opened file. -/
inductive Sink where
  /-- To the file, whether or not anything can be read back from it. -/
  | file
  /-- Into the output of the program itself. -/
  | output
  /-- Into the error output of the program itself. -/
  | errors
  /-- Nowhere: what is handed over is refused. -/
  | refusing (e : FileError)
  deriving DecidableEq, Repr

def Sink.refusal? : Sink → Option FileError
  | .refusing e => some e
  | .file | .output | .errors => none

structure Host where
  read : String → Except FileError (List Byte)
  /-- Opens a file for writing, which makes it or empties it. -/
  create : String → Except FileError Sink
  /-- The bytes that one memory may span. -/
  memory : Nat

end FiveStage
