import FiveStage.Word

/-
  Executable files — the parts of the 32-bit ELF format that loading needs

  A file is a list of bytes. Its first 52 are the header, which gives the byte
  order of every other number, the machine, the entry point and the place of
  the program headers; each of those, 32 bytes long, describes a segment. A
  file that does not fit this is refused with a `Defect`.
-/

namespace FiveStage

namespace Elf

inductive Defect where
  /-- It is too short for a header. -/
  | headerSize
  /-- It has no magic number, or is of another class, byte order or version. -/
  | unsupported
  /-- The number of segments is said to be in a section header, and there is none. -/
  | noSections
  | sectionEntrySize
  | sectionRange
  | segmentEntrySize
  | segmentRange
  /-- A segment's bytes are not all in the file. -/
  | segmentPastEnd (address : Word)
  deriving DecidableEq, Repr

def Defect.message : Defect → String
  | .headerSize => "Invalid ELF header size or alignment"
  | .unsupported => "Unsupported ELF header"
  | .noSections => "Missing ELF section headers for e_phnum overflow"
  | .sectionEntrySize => "Invalid ELF section header entry size"
  | .sectionRange => "Invalid ELF section header offset or size"
  | .segmentEntrySize => "Invalid ELF program header entry size"
  | .segmentRange => "Invalid ELF program header size or alignment"
  | .segmentPastEnd address => "segment at " ++ Word.hex address ++ " runs past the file"

/-- The order in which a number's bytes are stored. -/
inductive ByteOrder where
  | little | big
  deriving DecidableEq, Repr

namespace ByteOrder

def name : ByteOrder → String
  | little => "Little"
  | big => "Big"

def number : ByteOrder → List Byte → Nat
  | little, bs => bs.foldr (fun b n => b.toNat + 256 * n) 0
  | big, bs => bs.foldl (fun n b => 256 * n + b.toNat) 0

/-- The number in `width` bytes from `offset` on. -/
def numberAt (o : ByteOrder) (bs : List Byte) (offset width : Nat) : Nat :=
  o.number ((bs.drop offset).take width)

def wordAt (o : ByteOrder) (bs : List Byte) (offset : Nat) : Word :=
  BitVec.ofNat 32 (o.numberAt bs offset 4)

end ByteOrder

/-- A stretch of bytes, if the file holds all of it. -/
def slice? (file : List Byte) (offset length : Nat) : Option (List Byte) :=
  if offset + length ≤ file.length then some ((file.drop offset).take length) else none

def magic : List Byte := [0x7f, 0x45, 0x4c, 0x46]

def isElf (file : List Byte) : Bool := file.take 4 == magic

structure Header where
  order : ByteOrder
  machine : Nat
  entry : Word
  /-- Where the program headers start; 0 if there are none. -/
  segmentOffset : Nat
  /-- Where the section headers start; 0 if there are none. -/
  sectionOffset : Nat
  segmentEntrySize : Nat
  segmentCount : Nat
  sectionEntrySize : Nat
  deriving DecidableEq, Repr

/-- The machine that this library is one of. -/
def riscv : Nat := 243

/-- The byte order that the identification of a file names, if the file is of
the supported class and version. -/
def identify? : List Byte → Option ByteOrder
  | 0x7f#8 :: 0x45#8 :: 0x4c#8 :: 0x46#8 :: 1#8 :: 1#8 :: 1#8 :: _ => some .little
  | 0x7f#8 :: 0x45#8 :: 0x4c#8 :: 0x46#8 :: 1#8 :: 2#8 :: 1#8 :: _ => some .big
  | _ => none

def Header.ofFile (file : List Byte) : Except Defect Header :=
  if file.length < 52 then .error .headerSize
  else
    match identify? file with
    | none => .error .unsupported
    | some order =>
      .ok
        { order
          machine := order.numberAt file 18 2
          entry := order.wordAt file 24
          segmentOffset := order.numberAt file 28 4
          sectionOffset := order.numberAt file 32 4
          segmentEntrySize := order.numberAt file 42 2
          segmentCount := order.numberAt file 44 2
          sectionEntrySize := order.numberAt file 46 2 }

structure Segment where
  type : Nat
  offset : Nat
  address : Word
  fileSize : Word
  memorySize : Word
  deriving DecidableEq, Repr

def loadable : Nat := 1

namespace Segment

def isLoadable (s : Segment) : Bool := s.type == loadable

/-- The segment that 32 bytes describe. -/
def ofBytes (o : ByteOrder) (bs : List Byte) : Segment :=
  { type := o.numberAt bs 0 4
    offset := o.numberAt bs 4 4
    address := o.wordAt bs 8
    fileSize := o.wordAt bs 16
    memorySize := o.wordAt bs 20 }

/-- The segments that a table of `count` entries describes. -/
def table (o : ByteOrder) : (count : Nat) → List Byte → List Segment
  | 0, _ => []
  | count + 1, bs => ofBytes o bs :: table o count (bs.drop 32)

end Segment

namespace Header

/-- The number of segments. A count too large for the header's field stands in
the first section header. -/
def countSegments (h : Header) (file : List Byte) : Except Defect Nat :=
  if h.segmentCount < 0xffff then .ok h.segmentCount
  else if h.sectionOffset = 0 then .error .noSections
  else if h.sectionEntrySize ≠ 40 then .error .sectionEntrySize
  else
    match slice? file h.sectionOffset 40 with
    | none => .error .sectionRange
    | some bs => .ok (h.order.numberAt bs 28 4)

def segments (h : Header) (file : List Byte) : Except Defect (List Segment) := do
  if h.segmentOffset = 0 then return []
  let count ← h.countSegments file
  if count = 0 then return []
  if h.segmentEntrySize ≠ 32 then throw .segmentEntrySize
  match slice? file h.segmentOffset (32 * count) with
  | none => throw .segmentRange
  | some bs => return Segment.table h.order count bs

end Header

end Elf

end FiveStage
