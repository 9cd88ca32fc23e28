import FiveStage.Simulation

/-
  The command line — one program file, five options that take a value or
  switch something on, and two requests for information

  Arguments are read from left to right. An option may have its value in the
  same argument, after `=` or directly behind its letter, or in the next one;
  switches of one letter may share an argument. `--` ends the options.

  A value is checked when the reader is done with it: when the next option or
  switch takes effect, when a program file is met, or at the end. So of two
  mistakes the earlier is reported, except that an argument that cannot be
  placed at all is reported at once.
-/

namespace FiveStage

namespace CommandLine

/-- Why a command line is not a request to run a program. -/
inductive Problem where
  | displayHelp
  | displayVersion
  /-- An option nobody knows, or a second program file. -/
  | unknownArgument
  /-- An option without its value, or an empty path. -/
  | invalidValue
  /-- A value that is no number or names no backend. -/
  | valueValidation
  /-- An option or switch given twice. -/
  | argumentConflict
  /-- A value for a switch. -/
  | tooManyValues
  /-- No program file. -/
  | missingRequiredArgument
  deriving DecidableEq, Repr

namespace Problem

def name : Problem → String
  | displayHelp => "DisplayHelp"
  | displayVersion => "DisplayVersion"
  | unknownArgument => "UnknownArgument"
  | invalidValue => "InvalidValue"
  | valueValidation => "ValueValidation"
  | argumentConflict => "ArgumentConflict"
  | tooManyValues => "TooManyValues"
  | missingRequiredArgument => "MissingRequiredArgument"

end Problem

/-! ## Values -/

/-- Letters whose upper case is `P`. -/
def pipelinedLetters : List Char := ['P', 'p']

/-- Letters whose upper case is `S`; the long s is one. -/
def sequentialLetters : List Char := ['S', 's', '\u017f']

def backend? (text : String) : Option Backend :=
  match text.toList with
  | [c] =>
    if pipelinedLetters.contains c then some .pipelined
    else if sequentialLetters.contains c then some .sequential
    else none
  | _ => none

def backendMessage (text : String) : String :=
  "Invalid implementation: \x27" ++ text ++ "\x27. Expected \x27P\x27 or \x27S\x27."

def digit? (c : Char) : Option Nat :=
  if '0' ≤ c ∧ c ≤ '9' then some (c.toNat - '0'.toNat) else none

/-- A non-empty run of decimal digits, read onto the number before it. -/
def digits? : Nat → List Char → Option Nat
  | n, [] => some n
  | n, c :: cs => (digit? c).bind fun d => digits? (10 * n + d) cs

/-- A number of up to 64 bits, perhaps with a plus sign in front. -/
def number? (text : String) : Option Nat :=
  let digits := match text.toList with
    | '+' :: cs => cs
    | cs => cs
  if digits.isEmpty then none else (digits? 0 digits).filter (· < UInt64.size)

/-! ## Options -/

/-- What takes a value. The program file is the one that has no name. -/
inductive Setting where
  | image | backend | maxCycles | memoryWords | trace
  deriving DecidableEq, Repr

inductive Switch where
  | screen | verbose | help | version
  deriving DecidableEq, Repr

inductive Named where
  | setting (s : Setting)
  | switch (s : Switch)
  deriving DecidableEq, Repr

def long? : String → Option Named
  | "implementation" => some (.setting .backend)
  | "max-cycles" => some (.setting .maxCycles)
  | "memory-words" => some (.setting .memoryWords)
  | "trace" => some (.setting .trace)
  | "screen" => some (.switch .screen)
  | "verbose" => some (.switch .verbose)
  | "help" => some (.switch .help)
  | "version" => some (.switch .version)
  | _ => none

def short? : Char → Option Named
  | 'i' => some (.setting .backend)
  | 'n' => some (.setting .maxCycles)
  | 'v' => some (.switch .verbose)
  | 'h' => some (.switch .help)
  | 'V' => some (.switch .version)
  | _ => none

structure Draft where
  image : Option String
  backend : Option Backend
  maxCycles : Option Nat
  memoryWords : Option Nat
  trace : Option String
  screen : Bool
  verbose : Bool
  deriving DecidableEq, Repr

namespace Draft

def blank : Draft := ⟨none, none, none, none, none, false, false⟩

def path (text : String) : Except Problem String :=
  if text.isEmpty then .error .invalidValue else .ok text

def required {α : Type} (value : Option α) : Except Problem α :=
  value.elim (.error .valueValidation) .ok

def once {α : Type} (place : Option α) : Except Problem Unit :=
  if place.isSome then .error .argumentConflict else .ok ()

/-- Settles a value: it must be there, be the first, and be a good one. -/
def assign (d : Draft) (s : Setting) (value : Option String) : Except Problem Draft := do
  let some text := value | throw .invalidValue
  match s with
  | .image =>
    once d.image
    return { d with image := some (← path text) }
  | .backend =>
    once d.backend
    return { d with backend := some (← required (backend? text)) }
  | .maxCycles =>
    once d.maxCycles
    return { d with maxCycles := some (← required (number? text)) }
  | .memoryWords =>
    once d.memoryWords
    return { d with memoryWords := some (← required (number? text)) }
  | .trace =>
    once d.trace
    return { d with trace := some (← path text) }

/-- Switches something on for the first time, or stops at a request. -/
def turnOn (d : Draft) : Switch → Except Problem Draft
  | .screen => if d.screen then .error .argumentConflict else .ok { d with screen := true }
  | .verbose => if d.verbose then .error .argumentConflict else .ok { d with verbose := true }
  | .help => .error .displayHelp
  | .version => .error .displayVersion

end Draft

/-! ## Reading -/

structure Reader where
  draft : Draft
  /-- A setting met but not yet settled, and its value if that has been met. -/
  unsettled : Option (Setting × Option String)
  /-- Whether a program file has been met. -/
  imageMet : Bool
  /-- Whether options have ended. -/
  literal : Bool
  deriving DecidableEq, Repr

namespace Reader

def start : Reader := ⟨.blank, none, false, false⟩

def settle (r : Reader) : Except Problem Reader :=
  match r.unsettled with
  | none => .ok r
  | some (s, value) => do return { r with draft := ← r.draft.assign s value, unsettled := none }

/-- A setting with its value in the same argument is settled at once. -/
def assign (r : Reader) (s : Setting) (value : String) : Except Problem Reader := do
  let r ← r.settle
  return { r with draft := ← r.draft.assign s (some value) }

def await (r : Reader) (s : Setting) : Except Problem Reader := do
  let r ← r.settle
  return { r with unsettled := some (s, none) }

def turnOn (r : Reader) (s : Switch) : Except Problem Reader := do
  let r ← r.settle
  return { r with draft := ← r.draft.turnOn s }

/-- The program file. A second one cannot be placed. -/
def place (r : Reader) (text : String) : Except Problem Reader :=
  if r.imageMet then .error .unknownArgument
  else do
    let r ← r.settle
    return { r with unsettled := some (.image, some text), imageMet := true }

/-- The name of a long option and what stands behind the first `=`. -/
def splitValue (cs : List Char) : String × Option String :=
  match cs.dropWhile (· != '=') with
  | [] => (String.ofList cs, none)
  | _ :: value => (String.ofList (cs.takeWhile (· != '=')), some (String.ofList value))

/-- An argument that starts with two dashes, which are left out. -/
def readLong (r : Reader) (cs : List Char) : Except Problem Reader :=
  let (name, value) := splitValue cs
  match long? name, value with
  | none, _ => .error .unknownArgument
  | some (.setting s), some value => r.assign s value
  | some (.setting s), none => r.await s
  | some (.switch _), some _ => .error .tooManyValues
  | some (.switch s), none => r.turnOn s

/-- What stands behind the letter of an option is its value, less an `=` in
front. -/
def attached : List Char → String
  | '=' :: cs => String.ofList cs
  | cs => String.ofList cs

/-- An argument that starts with one dash, which is left out: switches up to
the first option, whose value is the rest. -/
def readShort (r : Reader) : List Char → Except Problem Reader
  | [] => .ok r
  | c :: cs =>
    match short? c with
    | none => .error .unknownArgument
    | some (.switch s) => do (← r.turnOn s).readShort cs
    | some (.setting s) => if cs.isEmpty then r.await s else r.assign s (attached cs)

/-- An argument that is no option: the value of an option that waits for one,
else the program file. -/
def readPlain (r : Reader) (text : String) : Except Problem Reader :=
  match r.unsettled with
  | some (s, none) => .ok { r with unsettled := some (s, some text) }
  | _ => r.place text

def read (r : Reader) (arg : String) : Except Problem Reader :=
  if r.literal then r.place arg
  else
    match arg.toList with
    | ['-', '-'] => .ok { r with literal := true }
    | '-' :: '-' :: cs => r.readLong cs
    | ['-'] => r.readPlain arg
    | '-' :: cs => r.readShort cs
    | _ => r.readPlain arg

end Reader

structure Request where
  image : String
  policy : Policy
  trace : Option String
  screen : Bool
  verbose : Bool
  deriving DecidableEq, Repr

def Draft.request (d : Draft) : Except Problem Request :=
  match d.image with
  | none => .error .missingRequiredArgument
  | some image =>
    .ok
      { image
        policy :=
          { backend := d.backend.getD Policy.standard.backend
            memoryWords := d.memoryWords.getD Policy.standard.memoryWords
            maxCycles := d.maxCycles.getD Policy.standard.maxCycles }
        trace := d.trace
        screen := d.screen
        verbose := d.verbose }

/-- Reads a command line, the name of the program left out. -/
def parse (args : List String) : Except Problem Request := do
  let r ← args.foldlM Reader.read Reader.start
  (← r.settle).draft.request

end CommandLine

end FiveStage
