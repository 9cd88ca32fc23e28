/-
  File errors — why a file was not opened, read or written

  Each has the number and the wording that an operating system has for it.
-/

namespace FiveStage

inductive FileError where
  | notFound
  | noDevice
  | permissionDenied
  | notADirectory
  | isADirectory
  | storageFull
  | nameTooLong
  /-- A name ends at a zero byte, so none can hold one. -/
  | zeroByte
  /-- Any other refusal, with its number and wording. -/
  | other (code : Nat) (reason : String)
  deriving DecidableEq, Repr

namespace FileError

/-- The number of a refusal; a name that no system can be asked about has
none. -/
def code? : FileError → Option Nat
  | notFound => some 2
  | noDevice => some 6
  | permissionDenied => some 13
  | notADirectory => some 20
  | isADirectory => some 21
  | storageFull => some 28
  | nameTooLong => some 36
  | zeroByte => none
  | other code _ => some code

def kind : FileError → String
  | notFound => "NotFound"
  | permissionDenied => "PermissionDenied"
  | notADirectory => "NotADirectory"
  | isADirectory => "IsADirectory"
  | storageFull => "StorageFull"
  | nameTooLong => "InvalidFilename"
  | zeroByte => "InvalidInput"
  | noDevice | other _ _ => "Uncategorized"

def reason : FileError → String
  | notFound => "No such file or directory"
  | noDevice => "No such device or address"
  | permissionDenied => "Permission denied"
  | notADirectory => "Not a directory"
  | isADirectory => "Is a directory"
  | storageFull => "No space left on device"
  | nameTooLong => "File name too long"
  | zeroByte => "file name contained an unexpected NUL byte"
  | other _ reason => reason

def message (e : FileError) : String :=
  match e.code? with
  | some code => e.reason ++ " (os error " ++ toString code ++ ")"
  | none => e.reason

def diagnostic (e : FileError) : String :=
  let described := "kind: " ++ e.kind ++ ", message: \"" ++ e.reason ++ "\" \x7d"
  match e.code? with
  | some code => "Os \x7b code: " ++ toString code ++ ", " ++ described
  | none => "Error \x7b " ++ described

end FileError

end FiveStage
