import FiveStage.Program

/-
  The executable — the program run on the files of the system

  Only here is anything read or written. The trace is written once the run is
  over; if that is refused, the program is run again with the refusal.
-/

namespace FiveStage

namespace Main

def refusal : IO.Error → FileError
  | .noFileOrDirectory _ _ _ => .notFound
  | .noSuchThing _ 6 _ => .noDevice
  | .permissionDenied _ 13 _ => .permissionDenied
  | .inappropriateType _ 20 _ => .notADirectory
  | .inappropriateType _ 21 _ => .isADirectory
  | .resourceExhausted _ 28 _ => .storageFull
  | .invalidArgument _ 36 _ => .nameTooLong
  | e => .other 0 (toString e)

/-- What an action gives, or why the system refused it. -/
def attempt {α : Type} (action : IO α) : IO (Except FileError α) := do
  try return .ok (← action)
  catch e => return .error (refusal e)

def readFile (path : String) : IO (Except FileError (List Byte)) := attempt do
  let bytes ← IO.FS.withFile path .read fun file => file.readBinToEnd
  return bytes.toList.map UInt8.toBitVec

/-- Writes a file; what became of the text if the file could be opened. -/
def writeFile (path text : String) : IO (Except FileError Sink) := do
  match ← attempt (IO.FS.Handle.mk path .write) with
  | .error e => return .error e
  | .ok file =>
    match ← attempt (do file.putStr text; file.flush) with
    | .error e => return .ok (.refusing e)
    | .ok () => return .ok .file

/-- The answer about the one file that a command line asks to read. -/
def ask (args : List String) : IO (Except FileError (List Byte)) :=
  match CommandLine.parse args with
  | .ok r => readFile r.image
  | .error _ => return .error .notFound

/-- A program that was killed ends with the code of an abort. -/
def answer (r : Program.Result) : IO UInt32 := do
  (← IO.getStdout).putStr r.out
  (← IO.getStderr).putStr r.err
  return UInt32.ofNat (r.code.getD 134)

def run (args : List String) : IO UInt32 := do
  let image ← ask args
  let host : Except FileError Sink → Host := fun sink =>
    ⟨fun _ => image, fun _ => sink, Memory.spanLimit⟩
  let result := Program.run (host (.ok .file)) args
  match result.written with
  | none => answer result
  | some (path, text) =>
    match ← writeFile path text with
    | .ok .file => answer result
    | refused => answer (Program.run (host refused) args)

end Main

end FiveStage

def main (args : List String) : IO UInt32 := FiveStage.Main.run args
