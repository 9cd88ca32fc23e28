/-
  Words and bytes — the 32-bit values that registers, memory cells and
  addresses hold, and how they are written

  A word is a bit vector, so sums and shifts wrap without further care. This
  module holds
    1. the cutting of a bit range out of a word and sign extension, both total:
       which ranges and widths make sense is the business of `Fault`;
    2. a word as four bytes, lowest byte first;
    3. the hexadecimal forms that every message and table uses.
-/

namespace FiveStage

/-- What a register, a memory cell or an address holds. -/
abbrev Word := BitVec 32

abbrev Byte := BitVec 8

namespace Word

def lowMask (width : Nat) : Word := BitVec.allOnes 32 >>> (32 - width)

/-- Bits `lo` to `hi`, both included, moved down to bit 0. -/
def bits (w : Word) (lo hi : Nat) : Word :=
  (w >>> lo) &&& lowMask (hi - lo + 1)

/-- The word whose lowest `width` bits are those of `w` and whose other bits
repeat bit `width - 1`. -/
def signExtend (w : Word) (width : Nat) : Word :=
  if w.getLsbD (width - 1) then w ||| (BitVec.allOnes 32 ^^^ lowMask width)
  else w &&& lowMask width

def popcount (w : Word) : Nat :=
  (List.range 32).countP (fun i => w.getLsbD i)

/-! ## Bytes -/

/-- Byte `lane` of a word, lane 0 lowest. -/
def byte (w : Word) (lane : Nat) : Byte :=
  w.extractLsb' (8 * lane) 8

def setByte (w : Word) (lane : Nat) (b : Byte) : Word :=
  (w &&& ~~~((0xff : Word) <<< (8 * lane))) ||| (b.setWidth 32 <<< (8 * lane))

/-- The word spelled by up to four bytes, lowest first; missing bytes are zero. -/
def ofBytes (bs : List Byte) : Word :=
  bs.foldr (fun b w => (w <<< 8) ||| b.setWidth 32) 0

/-! ## Hexadecimal text -/

def hexDigits (w : Word) : List Char :=
  [7, 6, 5, 4, 3, 2, 1, 0].map (fun i => Nat.digitChar ((w >>> (4 * i)).toNat % 16))

def hex (w : Word) : String :=
  "0x" ++ String.ofList w.hexDigits

/-- Only the digits a number needs, with no mark in front. -/
def bareHex (w : Word) : String :=
  String.ofList (Nat.toDigits 16 w.toNat)

end Word

end FiveStage
