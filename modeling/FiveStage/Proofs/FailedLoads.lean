import FiveStage.Proofs.Segments

/-
  Failed loads — the state in which an executable that cannot be loaded leaves a machine

  Loading changes the machine as it goes and takes nothing back. What has been changed by
  the time it gives up is the entry point, the segments before the one it failed at, and
  of that one the bytes that lie in memory, if its bytes were written at all.

  What is proved:
    1. `Memory.ext_byteAt` — memories of one capacity are told apart by their bytes, so
       that what is said about each byte is said about the state.
    2. `Segment.exists_stops`, `Segment.load_of_stops` — a segment that does not fit stops
       for a reason, and leaves what that reason says.
    3. `exists_first_stop`, `loadSegments_of_stops` — a table up to its first segment that
       does not fit.
    4. `load_fails_iff` — all the ways to fail, each with the state that is left.
-/

namespace FiveStage

/-! ## Memories with equal bytes -/

theorem Word.eq_of_byte {v w : Word} (h : ∀ lane < 4, byte v lane = byte w lane) : v = w := by
  apply BitVec.eq_of_getLsbD_eq
  intro i hi
  have hbit := congrArg (·.getLsbD (i % 8)) (h (i / 8) (by omega))
  have h8 : i % 8 < 8 := Nat.mod_lt i (by decide)
  simp only [byte, BitVec.getLsbD_extractLsb', h8, decide_true, Bool.true_and,
    Nat.div_add_mod] at hbit
  exact hbit

namespace Memory

theorem ext_byteAt {m n : Memory} (hc : m.capacity = n.capacity)
    (h : ∀ a, m.byteAt a = n.byteAt a) : m = n := by
  apply ext_cell hc
  intro i
  apply Word.eq_of_byte
  intro lane hlane
  have hbyte := h (4 * i + lane)
  rw [byteAt, byteAt, show (4 * i + lane) / 4 = i by omega,
    show (4 * i + lane) % 4 = lane by omega] at hbyte
  exact hbyte

end Memory

namespace Elf

variable {path : String} {file : List Byte} {mem mem' : Memory} {x : Segment} {e : SimError}
  {upTo : Nat}

/-! ## A segment that does not fit -/

namespace Segment

/-- Why a segment is not loaded into a memory of `size` bytes, and the address up to which
its bytes are written all the same. Of several reasons it is the first. -/
inductive Stops (path : String) (file : List Byte) (size : Nat) (x : Segment) :
    SimError → Nat → Prop
  /-- It reaches past the last address. -/
  | addressSpace (ends : 2 ^ 32 ≤ x.address.toNat + x.memorySize.toNat) :
    Stops path file size x (.elf (.addressSpace x.address)) 0
  /-- It reaches past the end of the file. -/
  | pastEnd (addressable : x.address.toNat + x.memorySize.toNat < 2 ^ 32)
      (ends : file.length < x.offset + x.fileSize.toNat) :
    Stops path file size x (.elf (.defective path (.segmentPastEnd x.address))) 0
  /-- It reaches past the end of memory; the address is the first of it that does. -/
  | memory (addressable : x.address.toNat + x.memorySize.toNat < 2 ^ 32)
      (inFile : x.offset + x.fileSize.toNat ≤ file.length)
      (ends : ∃ a, x.covers a ∧ size ≤ a) (address : Word)
      (first : address.toNat = max x.address.toNat size) :
    Stops path file size x (.memory ⟨address⟩) size

/-- The segment's bytes below an address have been written, and no others. -/
structure WrittenTo (x : Segment) (file : List Byte) (upTo : Nat) (mem mem' : Memory) : Prop where
  capacity : mem'.capacity = mem.capacity
  byte : ∀ a, mem'.byteAt a =
    if x.covers a ∧ a < upTo then x.byteFor file a else mem.byteAt a

theorem WrittenTo.nothing (x : Segment) (file : List Byte) (mem : Memory) :
    x.WrittenTo file 0 mem mem where
  capacity := rfl
  byte a := (if_neg fun h => Nat.not_lt_zero a h.2).symm

theorem WrittenTo.of_patched
    (h : mem.Patched x.address.toNat x.memorySize.toNat
      ((file.drop x.offset).take x.fileSize.toNat) mem') :
    x.WrittenTo file mem.size mem mem' where
  capacity := h.capacity
  byte a := by
    rw [h.byte, getD_slice]
    by_cases hin : x.covers a ∧ a < mem.size
    · rw [if_pos hin, if_pos ⟨hin.1.1, hin.1.2, hin.2⟩, byteFor]
    · rw [if_neg hin, if_neg fun hp => hin ⟨⟨hp.1, hp.2.1⟩, hp.2.2⟩]

theorem overrun_of_covers {address : Word} (ends : ∃ a, x.covers a ∧ mem.size ≤ a)
    (first : address.toNat = max x.address.toNat mem.size) :
    mem.overrun x.address.toNat x.memorySize.toNat = some ⟨address⟩ := by
  obtain ⟨a, ⟨hlo, hhi⟩, hsize⟩ := ends
  rw [Memory.overrun, if_neg (by omega), ← first, BitVec.ofNat_toNat, BitVec.setWidth_eq]

/-- A segment that stops leaves what its reason says. -/
theorem load_of_stops (h : x.Stops path file mem.size e upTo) :
    ∃ m, x.load path file mem = (m, some e) ∧ x.WrittenTo file upTo mem m := by
  cases h with
  | addressSpace ends =>
    exact ⟨mem, load_of_not_addressable path file mem (Nat.not_lt.mpr ends), .nothing x file mem⟩
  | pastEnd ha ends =>
    exact ⟨mem, load_of_past_end path mem ha (Nat.not_le.mpr ends), .nothing x file mem⟩
  | memory ha hf ends address first =>
    obtain ⟨m, hp, hl⟩ := load_eq path mem ha hf
    rw [overrun_of_covers ends first] at hl
    exact ⟨m, hl, .of_patched hp⟩

theorem exists_stops (path : String) (h : ¬x.Fits file mem) :
    ∃ e upTo, x.Stops path file mem.size e upTo := by
  by_cases ha : x.address.toNat + x.memorySize.toNat < 2 ^ 32
  · by_cases hf : x.offset + x.fileSize.toNat ≤ file.length
    · have hends : ∃ a, x.covers a ∧ mem.size ≤ a := by
        refine Classical.byContradiction fun hno => h ⟨ha, hf, fun a hcov => ?_⟩
        exact Nat.lt_of_not_le fun hle => hno ⟨a, hcov, hle⟩
      have hfirst : (BitVec.ofNat 32 (max x.address.toNat mem.size)).toNat =
          max x.address.toNat mem.size := by
        obtain ⟨a, ⟨hlo, hhi⟩, hsize⟩ := hends
        exact Nat.mod_eq_of_lt (show max x.address.toNat mem.size < 2 ^ 32 by omega)
      exact ⟨_, _, .memory ha hf hends _ hfirst⟩
    · exact ⟨_, _, .pastEnd ha (Nat.lt_of_not_le hf)⟩
  · exact ⟨_, _, .addressSpace (Nat.le_of_not_lt ha)⟩

end Segment

/-! ## A table with such a segment -/

theorem loadSegments_append {before after : List Segment}
    (h : loadSegments path file before mem = (mem', none)) :
    loadSegments path file (before ++ after) mem = loadSegments path file after mem' := by
  induction before generalizing mem with
  | nil =>
    cases h
    rfl
  | cons x before ih =>
    rw [List.cons_append, loadSegments]
    rw [loadSegments] at h
    cases hx : x.load path file mem with
    | mk m e =>
      rw [hx] at h
      cases e with
      | none => exact ih h
      | some e => cases h

/-- A table is loaded up to its first segment that does not fit. -/
theorem loadSegments_of_stops {before : List Segment} (after : List Segment)
    (hb : ∀ y ∈ before, y.Fits file mem) (hx : x.Stops path file mem.size e upTo) :
    ∃ m, loadSegments path file (before ++ x :: after) mem = (m, some e) ∧
      m.capacity = mem.capacity ∧
      ∀ a, m.byteAt a =
        if x.covers a ∧ a < upTo then x.byteFor file a
        else byteAfter file before a (mem.byteAt a) := by
  obtain ⟨m₁, hl₁, hc₁, hb₁⟩ := loadSegments_of_fits path hb
  rw [show mem.size = m₁.size by rw [Memory.size, Memory.size, hc₁]] at hx
  obtain ⟨m, hl, hw⟩ := Segment.load_of_stops hx
  refine ⟨m, ?_, hw.capacity.trans hc₁, fun a => ?_⟩
  · rw [loadSegments_append hl₁, loadSegments, hl]
  · rw [hw.byte, hb₁]

/-- In a table that does not fit there is a first segment that does not. -/
theorem exists_first_stop (path : String) {table : List Segment}
    (h : ¬∀ y ∈ table, y.Fits file mem) :
    ∃ before x after e upTo, table = before ++ x :: after ∧ (∀ y ∈ before, y.Fits file mem) ∧
      Segment.Stops path file mem.size x e upTo := by
  induction table with
  | nil => exact absurd (fun y hy => absurd hy List.not_mem_nil) h
  | cons y table ih =>
    by_cases hy : y.Fits file mem
    · have hrest : ¬∀ z ∈ table, z.Fits file mem :=
        fun hall => h (List.forall_mem_cons.mpr ⟨hy, hall⟩)
      obtain ⟨before, x, after, e, upTo, rfl, hb, hx⟩ := ih hrest
      exact ⟨y :: before, x, after, e, upTo, rfl, List.forall_mem_cons.mpr ⟨hy, hb⟩, hx⟩
    · obtain ⟨e, upTo, hx⟩ := Segment.exists_stops path hy
      exact ⟨[], y, table, e, upTo, rfl, fun z hz => absurd hz List.not_mem_nil, hx⟩

/-! ## A file -/

/-- How loading a file fails, and the state that is left. -/
inductive Fails (path : String) (file : List Byte) (s : State) : State → SimError → Prop
  /-- The header cannot be read: nothing has changed. -/
  | header {d : Defect} (unread : Header.ofFile file = .error d) :
    Fails path file s s (.elf (.defective path d))
  /-- The file is for another machine: nothing has changed. -/
  | foreign {h : Header} (read : Header.ofFile file = .ok h) (machine : h.machine ≠ riscv) :
    Fails path file s s (.elf (.foreignMachine h.machine))
  /-- The table of segments cannot be read: only the program counter has changed. -/
  | table {h : Header} {d : Defect} (read : Header.ofFile file = .ok h)
      (machine : h.machine = riscv) (unread : h.segments file = .error d) :
    Fails path file s { s with cpu := { s.cpu with pc := h.entry } } (.elf (.defective path d))
  /-- A loadable segment does not fit: those before it are in memory, none behind it is,
  and it is itself as far as its reason says. -/
  | segment {h : Header} {table before after : List Segment} {x : Segment} {e : SimError}
      {upTo : Nat} {mem : Memory} (read : Header.ofFile file = .ok h)
      (machine : h.machine = riscv) (listed : h.segments file = .ok table)
      (first : table.filter Segment.isLoadable = before ++ x :: after)
      (fit : ∀ y ∈ before, y.Fits file s.mem) (stops : x.Stops path file s.mem.size e upTo)
      (capacity : mem.capacity = s.mem.capacity)
      (byte : ∀ a, mem.byteAt a =
        if x.covers a ∧ a < upTo then x.byteFor file a
        else byteAfter file before a (s.mem.byteAt a)) :
    Fails path file s ⟨{ s.cpu with pc := h.entry }, mem⟩ e

variable {s s' : State}

theorem load_of_fails (h : Fails path file s s' e) : load path file s = (s', some e) := by
  cases h with
  | header hh => simp only [load, Elf.header, hh]
  | foreign hh hm => exact load_of_foreign path s hh hm
  | table hh hm ht => simp only [load, Elf.header, hh, if_pos hm, loadableSegments, ht]
  | segment hh hm ht hfirst hfit hstops hc hb =>
    obtain ⟨m, hl, hc', hb'⟩ := loadSegments_of_stops _ hfit hstops
    rw [load_eq path s hh hm ht, hfirst, hl,
      Memory.ext_byteAt (hc'.trans hc.symm) fun a => (hb' a).trans (hb a).symm]

theorem exists_fails (hsome : (load path file s).2 ≠ none) : ∃ s' e, Fails path file s s' e := by
  cases hh : Header.ofFile file with
  | error d => exact ⟨_, _, .header hh⟩
  | ok h =>
    by_cases hm : h.machine = riscv
    · cases ht : h.segments file with
      | error d => exact ⟨_, _, .table hh hm ht⟩
      | ok table =>
        have hnot : ¬∀ y ∈ table.filter Segment.isLoadable, y.Fits file s.mem :=
          fun hall => hsome ((load_eq_none_iff path s hh ht).mpr ⟨hm, hall⟩)
        obtain ⟨before, x, after, e, upTo, hfirst, hfit, hstops⟩ := exists_first_stop path hnot
        obtain ⟨m, -, hc, hb⟩ := loadSegments_of_stops after hfit hstops
        exact ⟨_, _, .segment hh hm ht hfirst hfit hstops hc hb⟩
    · exact ⟨_, _, .foreign hh hm⟩

/-- **A failed load leaves one state for each way to fail.** Nothing has changed if the
header cannot be read or names another machine, and only the program counter if the table
of segments cannot be read. Else the loadable segments are in memory up to the first that
does not fit. Nothing of that one is, if it reaches past the last address, which is looked
at first, or past the end of the file; if it reaches past the end of memory, its bytes
before that end are, and the error has its first address behind. There is no other way
to fail. -/
theorem load_fails_iff (path : String) (file : List Byte) (s s' : State) (e : SimError) :
    load path file s = (s', some e) ↔ Fails path file s s' e := by
  constructor
  · intro hload
    have hsome : (load path file s).2 ≠ none := by
      rw [hload]
      exact Option.some_ne_none e
    obtain ⟨s₁, e₁, hfails⟩ := exists_fails hsome
    cases (load_of_fails hfails).symm.trans hload
    exact hfails
  · exact load_of_fails

-- The first segment starts in the only word there is and ends behind it.
example :
    load "two" twoSegments ⟨.reset, .zeroed 1⟩ =
      (⟨{ Cpu.reset with pc := 4 }, (Memory.zeroed 1).set 0 0x7f000000 (by decide)⟩,
        some (.memory ⟨4⟩)) := by
  rfl

end Elf

end FiveStage
