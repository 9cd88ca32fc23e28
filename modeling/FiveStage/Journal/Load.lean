import FiveStage.Event
import FiveStage.Elf.Load

/-
  What loading reports — the size of a raw image, the entry point and the
  segments of an executable

  A segment is reported once it is known to be addressable, before its bytes
  are looked for in the file.
-/

namespace FiveStage

namespace Journal

/-- An image that is not loaded to its end is not reported. -/
def image (outcome : Memory × Except Image.Obstacle Nat) : List Event :=
  match outcome with
  | (mem, .ok words) => [.imageLoaded words mem.size]
  | (_, .error _) => []

def segments (path : String) (file : List Byte) : List Elf.Segment → Memory → List Event
  | [], _ => []
  | s :: rest, mem =>
    (if s.addressable then [.segmentLoading s.address s.memorySize s.fileSize] else [])
      ++ match s.load path file mem with
        | (mem, none) => segments path file rest mem
        | (_, some _) => []

def executable (path : String) (file : List Byte) (s : State) : List Event :=
  match Elf.header path file with
  | .error _ => []
  | .ok h =>
    .entryPoint h.entry ::
      match Elf.loadableSegments path file h with
      | .error _ => []
      | .ok loadable => segments path file loadable s.mem

end Journal

end FiveStage
