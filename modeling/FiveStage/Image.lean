import FiveStage.Memory

/-
  Raw images — a stream of bytes laid into memory as words, from address 0

  A stream answers each read with some bytes, with none at its end, with a
  note to try again, or with a failure. Bytes are collected four at a time,
  lowest first, and written as soon as a word is complete; at the end of the
  stream an incomplete word is filled up with zeros. Whatever has been written
  when loading fails stays written.
-/

namespace FiveStage

namespace Image

/-- What one read of a stream answers. -/
inductive Delivery where
  /-- Some bytes; none at the end of the stream. -/
  | bytes (bs : List Byte)
  /-- Nothing this time; the read is made again. -/
  | interrupted
  | failed (text : String)
  deriving DecidableEq, Repr

inductive Obstacle where
  | memory (e : OutOfBounds)
  | stream (text : String)
  deriving DecidableEq, Repr

/-- Memory partly filled: where the next word goes, how many have been
written, and the bytes of it collected so far. -/
structure Filling where
  mem : Memory
  address : Word
  words : Nat
  collected : List Byte

namespace Filling

def start (mem : Memory) : Filling := ⟨mem, 0, 0, []⟩

def flush (f : Filling) : Except OutOfBounds Filling := do
  let mem ← f.mem.write f.address (Word.ofBytes f.collected)
  return { mem, address := f.address + 4, words := f.words + 1, collected := [] }

/-- Takes one byte more; the fourth completes a word. -/
def push (f : Filling) (b : Byte) : Except OutOfBounds Filling :=
  let f := { f with collected := f.collected ++ [b] }
  if f.collected.length = 4 then f.flush else .ok f

def absorb (f : Filling) : List Byte → Filling × Option Obstacle
  | [] => (f, none)
  | b :: bs =>
    match f.push b with
    | .ok f => f.absorb bs
    | .error e => (f, some (.memory e))

/-- Writes what is left of an incomplete word. -/
def close (f : Filling) : Filling × Option Obstacle :=
  if f.collected.isEmpty then (f, none)
  else
    match f.flush with
    | .ok f => (f, none)
    | .error e => (f, some (.memory e))

def drain (f : Filling) : List Delivery → Filling × Option Obstacle
  | [] => f.close
  | .bytes [] :: _ => f.close
  | .bytes bs :: rest =>
    match f.absorb bs with
    | (f, none) => f.drain rest
    | (f, some o) => (f, some o)
  | .interrupted :: rest => f.drain rest
  | .failed text :: _ => (f, some (.stream text))

end Filling

/-- Loads a stream: the memory afterwards, and the number of words or what
stood in the way. -/
def load (mem : Memory) (stream : List Delivery) : Memory × Except Obstacle Nat :=
  match (Filling.start mem).drain stream with
  | (f, none) => (f.mem, .ok f.words)
  | (f, some o) => (f.mem, .error o)

def loadBytes (mem : Memory) (bs : List Byte) : Memory × Except Obstacle Nat :=
  load mem [.bytes bs]

end Image

end FiveStage
