import FiveStage.Host

/-
  A disk in memory — folders, files and devices, and the refusals of an
  operating system

  A path is followed name by name, from the root if it starts with a slash and
  from the home folder if not. All names but the last must lead to folders. The
  last may name a file that is still to be made.

  A path that ends in a slash asks for a folder of its last name. A reader first
  looks whether there is anything of that name; a file that is to be made is
  refused at once.
-/

namespace FiveStage

namespace Disk

/-- The names from the root to a place on a disk. -/
abbrev Place := List String

inductive Node where
  /-- A folder, and why no file can be made in it, if none can. -/
  | folder (closed : Option FileError)
  | file (bytes : List Byte)
  /-- What a device gives to a reader and where it sends what it is given. -/
  | device (reading : Except FileError (List Byte)) (writing : Except FileError Sink)

end Disk

structure Disk where
  nodes : List (Disk.Place × Disk.Node)
  home : Disk.Place

namespace Disk

def node? (d : Disk) (place : Place) : Option Node :=
  (d.nodes.find? (·.1 == place)).map (·.2)

def put (d : Disk) (place : Place) (node : Node) : Disk :=
  { d with nodes := (place, node) :: d.nodes.filter (·.1 != place) }

theorem node?_put (d : Disk) (place : Place) (node : Node) :
    (d.put place node).node? place = some node := by
  simp [put, node?]

/-! ## Following a path -/

def nameLimit : Nat := 255

def pathLimit : Nat := 4095

/-- The folder that a name leads to; the root is above itself. -/
def enter (d : Disk) (here : Place) (name : String) : Except FileError Place :=
  if name == "." then .ok here
  else if name == ".." then .ok here.dropLast
  else if nameLimit < name.utf8ByteSize then .error .nameTooLong
  else
    match d.node? (here ++ [name]) with
    | none => .error .notFound
    | some (.folder _) => .ok (here ++ [name])
    | some (.file _) | some (.device _ _) => .error .notADirectory

/-- What a path comes to once all but its last name has been followed. -/
inductive Goal where
  | folder
  /-- A name in the folder `here`, perhaps with a slash behind it. -/
  | name (here : Place) (name : String) (slash : Bool)
  deriving DecidableEq, Repr

def approach (d : Disk) (path : String) : Except FileError Goal :=
  if path.toList.contains '\x00' then .error .zeroByte
  else if path.isEmpty then .error .notFound
  else if pathLimit < path.utf8ByteSize then .error .nameTooLong
  else
    let names := (path.splitOn "/").filter (· != "")
    let start := if path.startsWith "/" then [] else d.home
    match names.getLast? with
    | none => .ok .folder
    | some last =>
      match names.dropLast.foldlM d.enter start with
      | .error e => .error e
      | .ok here =>
        if last == "." || last == ".." then .ok .folder
        else .ok (.name here last (path.endsWith "/"))

/-! ## Reading and writing -/

def read (d : Disk) (path : String) : Except FileError (List Byte) :=
  match d.approach path with
  | .error e => .error e
  | .ok .folder => .error .isADirectory
  | .ok (.name here name slash) =>
    if nameLimit < name.utf8ByteSize then .error .nameTooLong
    else
      match d.node? (here ++ [name]) with
      | none => .error .notFound
      | some (.folder _) => .error .isADirectory
      | some (.file bytes) => if slash then .error .notADirectory else .ok bytes
      | some (.device reading _) => if slash then .error .notADirectory else reading

/-- Why no file can be made in a folder, if none can. -/
def closed? (d : Disk) (here : Place) : Option FileError :=
  match d.node? here with
  | some (.folder closed) => closed
  | _ => none

/-- Opens a path for writing: the place that it leads to, and where the text
goes. -/
def target (d : Disk) (path : String) : Except FileError (Place × Sink) :=
  match d.approach path with
  | .error e => .error e
  | .ok .folder | .ok (.name _ _ true) => .error .isADirectory
  | .ok (.name here name false) =>
    if nameLimit < name.utf8ByteSize then .error .nameTooLong
    else
      match d.node? (here ++ [name]) with
      | some (.folder _) => .error .isADirectory
      | some (.file _) => .ok (here ++ [name], .file)
      | some (.device _ writing) => writing.map fun sink => (here ++ [name], sink)
      | none =>
        match d.closed? here with
        | some e => .error e
        | none => .ok (here ++ [name], .file)

/-- The disk after a text has been written. A device keeps nothing. -/
def write (d : Disk) (path text : String) : Disk :=
  match d.target path with
  | .error _ => d
  | .ok (place, _) =>
    match d.node? place with
    | some (.device _ _) => d
    | _ => d.put place (.file (text.toUTF8.toList.map UInt8.toBitVec))

def text? (d : Disk) (path : String) : Option String :=
  match d.read path with
  | .error _ => none
  | .ok bytes => String.fromUTF8? (ByteArray.mk (bytes.map UInt8.ofBitVec).toArray)

def host (d : Disk) (memory : Nat) : Host :=
  { read := d.read
    create := fun path => (d.target path).map (·.2)
    memory }

/-! ## The disk of an ordinary system -/

/-- The folders at the root; those that only show the state of the system are
closed. -/
def rootFolders : List (Place × Node) :=
  (["bin", "boot", "dev", "etc", "home", "lib", "media", "mnt", "opt", "root", "run", "sbin",
      "srv", "tmp", "usr", "var"].map fun name => ([name], .folder none))
    ++ [(["proc"], .folder (some .notFound)), (["sys"], .folder (some .permissionDenied))]

/-- What never ends fills the memory of its reader. -/
def endless : Except FileError (List Byte) := .error (.other 12 "Cannot allocate memory")

/-- The input of a program is at its end; its outputs can only be written. -/
def streams : List Node :=
  [.device (.ok []) (.ok .file), .device endless (.ok .output), .device endless (.ok .errors)]

def devices : List (Place × Node) :=
  [(["dev", "null"], .device (.ok []) (.ok .file)),
    (["dev", "zero"], .device endless (.ok .file)),
    (["dev", "random"], .device endless (.ok .file)),
    (["dev", "urandom"], .device endless (.ok .file)),
    (["dev", "full"], .device endless (.ok (.refusing .storageFull))),
    (["dev", "tty"], .device (.error .noDevice) (.error .noDevice)),
    (["dev", "pts"], .folder (some .permissionDenied)),
    (["dev", "shm"], .folder none),
    (["dev", "fd"], .folder (some .notFound)),
    (["proc", "self"], .folder (some .notFound)),
    (["proc", "self", "fd"], .folder (some .notFound))]
    ++ ["stdin", "stdout", "stderr"].zipWith (fun name node => (["dev", name], node)) streams
    ++ ["0", "1", "2"].zipWith (fun name node => (["dev", "fd", name], node)) streams
    ++ ["0", "1", "2"].zipWith (fun name node => (["proc", "self", "fd", name], node)) streams

/-- The start of a program of the system itself, which is a 64-bit executable. -/
def programHead : List Byte := [0x7f, 0x45, 0x4c, 0x46, 2, 1, 1] ++ List.replicate 57 0

def ordinary : Disk :=
  { home := ["tmp", "work"]
    nodes := ([], .folder none) :: (["tmp", "work"], .folder none) :: (["bin", "sh"], .file programHead)
      :: (["proc", "self", "exe"], .file programHead) :: rootFolders ++ devices }

end Disk

end FiveStage
