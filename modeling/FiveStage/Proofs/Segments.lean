import FiveStage.Elf.Load
import FiveStage.Proofs.Conformance

/-
  Segments — what loading an executable leaves in memory, byte by byte

  Memory is looked at as bytes, lowest byte of a word first. Writing a byte is reading
  and writing the word it is a lane of, so segments may share words; each byte that is
  written is nevertheless changed alone. Writing many stops at the end of memory, and
  what lies before that end has been written by then.

  What is proved:
    1. `byte_setByte`, `byteAt_setByte` — one byte.
    2. `writeBytes_eq` — many, up to the end of memory.
    3. `Segment.load_of_fits`, `loadSegments_of_fits` — a segment, and a table of them,
       of which the last one that covers an address tells its byte.
    4. `load_segments` — so an executable is loaded, or not, as its table says.
-/

namespace FiveStage

/-! ## One byte -/

namespace Word

/-- A replaced byte is the new one, the others are as they were. -/
theorem byte_setByte (w : Word) (b : Byte) {lane j : Nat} (hl : lane < 4) (hj : j < 4) :
    byte (setByte w lane b) j = if j = lane then b else byte w j := by
  have hff : (0xff : Word) = lowMask 8 := by decide
  apply BitVec.eq_of_getLsbD_eq
  intro i hi
  have h32 : 8 * j + i < 32 := by omega
  have hd : 8 * j + i - 8 * lane < 32 := by omega
  simp only [setByte, byte, hff, BitVec.getLsbD_extractLsb', BitVec.getLsbD_or,
    BitVec.getLsbD_and, BitVec.getLsbD_not, BitVec.getLsbD_shiftLeft, BitVec.getLsbD_setWidth,
    getLsbD_lowMask hd, hi, h32, hd, decide_true, Bool.true_and]
  rcases Nat.lt_trichotomy j lane with h | h | h
  · rw [if_neg (by omega), decide_eq_true (show 8 * j + i < 8 * lane by omega)]
    simp [hi]
  · subst h
    rw [if_pos rfl, decide_eq_false (show ¬8 * j + i < 8 * j by omega), Nat.add_sub_cancel_left,
      decide_eq_true hi]
    simp
  · rw [if_neg (by omega), decide_eq_false (show ¬8 * j + i < 8 * lane by omega),
      decide_eq_false (show ¬8 * j + i - 8 * lane < 8 by omega),
      BitVec.getLsbD_of_ge b _ (by omega)]
    simp [hi]

end Word

namespace Memory

/-- The byte at an address. -/
def byteAt (m : Memory) (a : Nat) : Byte := Word.byte (m.cell (a / 4)) (a % 4)

variable {m m' : Memory} {address : Word}

theorem holds_iff : m.Holds address ↔ address.toNat < m.size := by
  rw [Holds, Word.toNat_cellOf, size]
  omega

/-- Memory with one byte replaced. -/
def setByte (m : Memory) (address : Word) (b : Byte) (h : m.Holds address) : Memory :=
  m.set address.cellOf (Word.setByte (m.cell address.cellOf) (address.toNat % 4) b) h

theorem size_setByte (h : m.Holds address) (b : Byte) : (m.setByte address b h).size = m.size := rfl

theorem byteAt_setByte (h : m.Holds address) (b : Byte) (a : Nat) :
    (m.setByte address b h).byteAt a = if a = address.toNat then b else m.byteAt a := by
  unfold Holds at h
  unfold byteAt setByte
  rw [cell_set _ _ _ _ h, Word.toNat_cellOf]
  by_cases hc : address.toNat / 4 = a / 4
  · rw [if_pos hc, Word.byte_setByte _ _ (Nat.mod_lt _ (by decide)) (Nat.mod_lt _ (by decide)), hc]
    by_cases ha : a = address.toNat
    · rw [if_pos ha, if_pos (by rw [ha])]
    · rw [if_neg ha, if_neg (by omega)]
  · rw [if_neg hc, if_neg fun ha => hc (by rw [ha])]

theorem writeByte_of_holds (h : m.Holds address) (b : Byte) :
    m.writeByte address b = .ok (m.setByte address b h) := by
  rw [writeByte, read_of_holds h]
  exact write_of_holds h _

theorem writeByte_of_not_holds (h : ¬m.Holds address) (b : Byte) :
    m.writeByte address b = .error ⟨address⟩ := by
  rw [writeByte, read_of_not_holds h]
  rfl

/-! ## Many bytes -/

/-- From address `v` on there are `count` bytes, those given and then zeros, as far as
memory reaches; all else is as before. -/
structure Patched (m : Memory) (v count : Nat) (bs : List Byte) (m' : Memory) : Prop where
  capacity : m'.capacity = m.capacity
  byte : ∀ a, m'.byteAt a =
    if v ≤ a ∧ a < v + count ∧ a < m.size then bs.getD (a - v) 0 else m.byteAt a

theorem Patched.cons {count : Nat} {bs : List Byte} {h : m.Holds address}
    (hp : (m.setByte address (bs.headD 0) h).Patched (address.toNat + 1) count bs.tail m') :
    m.Patched address.toNat (count + 1) bs m' where
  capacity := hp.capacity
  byte := by
    intro a
    have hv : address.toNat < m.size := holds_iff.mp h
    rw [hp.byte, byteAt_setByte, size_setByte]
    by_cases ha : a = address.toNat
    · subst ha
      rw [if_neg (by omega), if_pos rfl, if_pos (by omega), Nat.sub_self]
      cases bs <;> rfl
    · rw [if_neg ha]
      by_cases hin : address.toNat ≤ a ∧ a < address.toNat + (count + 1) ∧ a < m.size
      · rw [if_pos (by omega), if_pos hin,
          show a - address.toNat = a - (address.toNat + 1) + 1 by omega]
        cases bs <;> rfl
      · rw [if_neg (by omega), if_neg hin]

/-- Where writing bytes goes past the end of memory. -/
def overrun (m : Memory) (v count : Nat) : Option OutOfBounds :=
  if count = 0 ∨ v + count ≤ m.size then none else some ⟨BitVec.ofNat 32 (max v m.size)⟩

theorem overrun_succ {v : Nat} (h : v < m.size) (count : Nat) :
    m.overrun v (count + 1) = m.overrun (v + 1) count := by
  unfold overrun
  by_cases hin : v + (count + 1) ≤ m.size
  · rw [if_pos (.inr hin), if_pos (by omega)]
  · rw [if_neg (by omega), if_neg (by omega), Nat.max_eq_right (by omega),
      Nat.max_eq_right (by omega)]

theorem overrun_of_not_holds (h : ¬m.Holds address) (count : Nat) :
    m.overrun address.toNat (count + 1) = some ⟨address⟩ := by
  have hv : m.size ≤ address.toNat := Nat.le_of_not_lt fun hlt => h (holds_iff.mpr hlt)
  rw [overrun, if_neg (by omega), Nat.max_eq_left hv, BitVec.ofNat_toNat, BitVec.setWidth_eq]

theorem overrun_eq_none_iff {v count : Nat} :
    m.overrun v count = none ↔ ∀ a, v ≤ a ∧ a < v + count → a < m.size := by
  unfold overrun
  constructor
  · intro h a hin
    split at h
    · omega
    · exact absurd h nofun
  · intro h
    by_cases h0 : count = 0
    · exact if_pos (.inl h0)
    · have := h (v + count - 1) (by omega)
      exact if_pos (.inr (by omega))

/-- Bytes are written up to the end of memory, which is where writing fails. -/
theorem writeBytes_eq (m : Memory) {count : Nat} (bs : List Byte)
    (h : address.toNat + count < 2 ^ 32) :
    ∃ m', m.Patched address.toNat count bs m' ∧
      m.writeBytes count address bs = (m', m.overrun address.toNat count) := by
  induction count generalizing m address bs with
  | zero =>
    refine ⟨m, ⟨rfl, fun a => ?_⟩, ?_⟩
    · rw [if_neg (by omega)]
    · rw [overrun, if_pos (.inl rfl)]
      rfl
  | succ count ih =>
    rw [writeBytes]
    by_cases hin : m.Holds address
    · have hnext : (address + 1).toNat = address.toNat + 1 := by
        rw [BitVec.toNat_add]
        exact Nat.mod_eq_of_lt (show address.toNat + 1 < 2 ^ 32 by omega)
      have hrest : (address + 1).toNat + count < 2 ^ 32 := by omega
      obtain ⟨m', hp, hw⟩ := ih (m.setByte address (bs.headD 0) hin) bs.tail hrest
      rw [hnext] at hp hw
      rw [writeByte_of_holds hin, overrun_succ (holds_iff.mp hin)]
      exact ⟨m', hp.cons, hw⟩
    · rw [writeByte_of_not_holds hin, overrun_of_not_holds hin]
      refine ⟨m, ⟨rfl, fun a => ?_⟩, rfl⟩
      have hv : m.size ≤ address.toNat := Nat.le_of_not_lt fun hlt => hin (holds_iff.mpr hlt)
      rw [if_neg (by omega)]

end Memory

/-! ## Segments -/

namespace Elf

variable {path : String} {file : List Byte} {mem mem' : Memory} {x : Segment}

namespace Segment

/-- An address is one of a segment's. -/
def covers (x : Segment) (a : Nat) : Prop :=
  x.address.toNat ≤ a ∧ a < x.address.toNat + x.memorySize.toNat

instance (x : Segment) (a : Nat) : Decidable (x.covers a) := inferInstanceAs (Decidable (_ ∧ _))

/-- The byte that a segment has at an address: one of the file, and behind those zero. -/
def byteFor (x : Segment) (file : List Byte) (a : Nat) : Byte :=
  if a - x.address.toNat < x.fileSize.toNat then
    file.getD (x.offset + (a - x.address.toNat)) 0
  else 0

/-- A segment ends before the address space does, its bytes are in the file, and its
addresses in memory. -/
structure Fits (x : Segment) (file : List Byte) (mem : Memory) : Prop where
  addressable : x.address.toNat + x.memorySize.toNat < 2 ^ 32
  inFile : x.offset + x.fileSize.toNat ≤ file.length
  inMemory : ∀ a, x.covers a → a < mem.size

theorem addressable_iff : x.addressable = true ↔ x.address.toNat + x.memorySize.toNat < 2 ^ 32 := by
  rw [addressable, BitVec.uaddOverflow, Bool.not_eq_true', decide_eq_false_iff_not, Nat.not_le]

theorem getD_slice (x : Segment) (file : List Byte) (i : Nat) :
    ((file.drop x.offset).take x.fileSize.toNat).getD i 0 =
      if i < x.fileSize.toNat then file.getD (x.offset + i) 0 else 0 := by
  simp only [List.getD_eq_getElem?_getD, List.getElem?_take, List.getElem?_drop]
  by_cases h : i < x.fileSize.toNat
  · rw [if_pos h, if_pos h]
  · rw [if_neg h, if_neg h]
    rfl

/-- A segment that can be written is written up to the end of memory. -/
theorem load_eq (path : String) (mem : Memory)
    (ha : x.address.toNat + x.memorySize.toNat < 2 ^ 32)
    (hf : x.offset + x.fileSize.toNat ≤ file.length) :
    ∃ m, mem.Patched x.address.toNat x.memorySize.toNat
        ((file.drop x.offset).take x.fileSize.toNat) m ∧
      x.load path file mem =
        (m, (mem.overrun x.address.toNat x.memorySize.toNat).map SimError.memory) := by
  obtain ⟨m, hp, hw⟩ := mem.writeBytes_eq ((file.drop x.offset).take x.fileSize.toNat) ha
  refine ⟨m, hp, ?_⟩
  have haddr := addressable_iff.mpr ha
  simp only [load, haddr, Bool.not_true, slice?, if_pos hf, hw]
  rfl

/-- A segment that fits is written, and nothing else is. -/
theorem load_of_fits (path : String) (h : x.Fits file mem) :
    ∃ m, x.load path file mem = (m, none) ∧ m.capacity = mem.capacity ∧
      ∀ a, m.byteAt a = if x.covers a then x.byteFor file a else mem.byteAt a := by
  obtain ⟨m, hp, hl⟩ := load_eq path mem h.addressable h.inFile
  rw [Memory.overrun_eq_none_iff.mpr h.inMemory] at hl
  refine ⟨m, hl, hp.capacity, fun a => ?_⟩
  rw [hp.byte, getD_slice]
  by_cases hc : x.covers a
  · rw [if_pos hc, if_pos ⟨hc.1, hc.2, h.inMemory a hc⟩, byteFor]
  · rw [if_neg hc, if_neg fun hin => hc ⟨hin.1, hin.2.1⟩]

/-- A segment that would leave the address space is not written at all. -/
theorem load_of_not_addressable (path : String) (file : List Byte) (mem : Memory)
    (ha : ¬x.address.toNat + x.memorySize.toNat < 2 ^ 32) :
    x.load path file mem = (mem, some (.elf (.addressSpace x.address))) := by
  have hn : x.addressable = false := Bool.eq_false_iff.mpr fun h => ha (addressable_iff.mp h)
  rw [load, hn]
  rfl

/-- Nor is one whose bytes are not all in the file. -/
theorem load_of_past_end (path : String) (mem : Memory)
    (ha : x.address.toNat + x.memorySize.toNat < 2 ^ 32)
    (hf : ¬x.offset + x.fileSize.toNat ≤ file.length) :
    x.load path file mem =
      (mem, some (.elf (.defective path (.segmentPastEnd x.address)))) := by
  simp only [load, addressable_iff.mpr ha, Bool.not_true, slice?, if_neg hf]
  rfl

theorem load_of_not_fits (path : String) (h : ¬x.Fits file mem) :
    ∃ m e, x.load path file mem = (m, some e) := by
  by_cases ha : x.address.toNat + x.memorySize.toNat < 2 ^ 32
  · by_cases hf : x.offset + x.fileSize.toNat ≤ file.length
    · obtain ⟨m, -, hl⟩ := load_eq path mem ha hf
      cases ho : mem.overrun x.address.toNat x.memorySize.toNat with
      | none => exact absurd ⟨ha, hf, Memory.overrun_eq_none_iff.mp ho⟩ h
      | some e => exact ⟨m, .memory e, by rw [hl, ho, Option.map_some]⟩
    · exact ⟨mem, _, load_of_past_end path mem ha hf⟩
  · exact ⟨mem, _, load_of_not_addressable path file mem ha⟩

theorem fits_iff : x.Fits file mem ↔
    x.address.toNat + x.memorySize.toNat < 2 ^ 32 ∧
      x.offset + x.fileSize.toNat ≤ file.length ∧
      mem.overrun x.address.toNat x.memorySize.toNat = none := by
  rw [Memory.overrun_eq_none_iff]
  exact ⟨fun h => ⟨h.addressable, h.inFile, h.inMemory⟩, fun h => ⟨h.1, h.2.1, h.2.2⟩⟩

instance : Decidable (x.Fits file mem) := decidable_of_iff' _ fits_iff

theorem Fits.of_capacity (h : x.Fits file mem) (hc : mem'.capacity = mem.capacity) :
    x.Fits file mem' where
  addressable := h.addressable
  inFile := h.inFile
  inMemory := by
    rw [Memory.size, hc]
    exact h.inMemory

end Segment

/-! ## Tables of segments -/

/-- The byte at an address once segments have been written over an old one. -/
def byteAfter (file : List Byte) (table : List Segment) (a : Nat) (old : Byte) : Byte :=
  table.foldl (fun b x => if x.covers a then x.byteFor file a else b) old

theorem byteAfter_of_none {table : List Segment} {a : Nat} (old : Byte)
    (h : ∀ x ∈ table, ¬x.covers a) : byteAfter file table a old = old := by
  induction table generalizing old with
  | nil => rfl
  | cons x table ih =>
    unfold byteAfter at ih ⊢
    rw [List.foldl_cons, if_neg (h x List.mem_cons_self)]
    exact ih old fun y hy => h y (List.mem_cons_of_mem x hy)

/-- The last segment that covers an address tells its byte. -/
theorem byteAfter_of_last {before after : List Segment} {a : Nat} (old : Byte) (hx : x.covers a)
    (h : ∀ y ∈ after, ¬y.covers a) :
    byteAfter file (before ++ x :: after) a old = x.byteFor file a := by
  rw [byteAfter, List.foldl_append, List.foldl_cons, if_pos hx]
  exact byteAfter_of_none _ h

/-- Segments that all fit are written one over the other. -/
theorem loadSegments_of_fits (path : String) {table : List Segment}
    (h : ∀ x ∈ table, x.Fits file mem) :
    ∃ m, loadSegments path file table mem = (m, none) ∧ m.capacity = mem.capacity ∧
      ∀ a, m.byteAt a = byteAfter file table a (mem.byteAt a) := by
  induction table generalizing mem with
  | nil => exact ⟨mem, rfl, rfl, fun a => rfl⟩
  | cons x table ih =>
    obtain ⟨m₁, hx, hc₁, hb₁⟩ := Segment.load_of_fits path (h x List.mem_cons_self)
    obtain ⟨m, hl, hc, hb⟩ := ih fun y hy => (h y (List.mem_cons_of_mem x hy)).of_capacity hc₁
    refine ⟨m, ?_, hc.trans hc₁, fun a => ?_⟩
    · rw [loadSegments, hx]
      exact hl
    · rw [hb, hb₁]
      rfl

theorem fits_of_loadSegments {table : List Segment}
    (h : (loadSegments path file table mem).2 = none) : ∀ x ∈ table, x.Fits file mem := by
  induction table generalizing mem with
  | nil => exact nofun
  | cons x table ih =>
    rw [loadSegments] at h
    have hx : x.Fits file mem := by
      refine Decidable.byContradiction fun hnot => ?_
      obtain ⟨m, e, hl⟩ := Segment.load_of_not_fits path hnot
      rw [hl] at h
      exact absurd h nofun
    obtain ⟨m, hl, hc, -⟩ := Segment.load_of_fits path hx
    rw [hl] at h
    intro y hy
    rcases List.mem_cons.mp hy with rfl | hmem
    · exact hx
    · exact (ih h y hmem).of_capacity hc.symm

/-! ## Files -/

variable {h : Header} {table : List Segment}

theorem isLoadable_iff : x.isLoadable = true ↔ x.type = loadable := beq_iff_eq

theorem load_of_foreign (path : String) (s : State) (hh : Header.ofFile file = .ok h)
    (hm : h.machine ≠ riscv) : load path file s = (s, some (.elf (.foreignMachine h.machine))) := by
  simp only [load, header, hh, if_neg hm]

/-- A file for this machine is its loadable segments and its entry point. -/
theorem load_eq (path : String) (s : State) (hh : Header.ofFile file = .ok h)
    (hm : h.machine = riscv) (ht : h.segments file = .ok table) :
    load path file s =
      (⟨{ s.cpu with pc := h.entry },
        (loadSegments path file (table.filter Segment.isLoadable) s.mem).1⟩,
        (loadSegments path file (table.filter Segment.isLoadable) s.mem).2) := by
  simp only [load, header, hh, if_pos hm, loadableSegments, ht]

/-- A file is loaded just if it is for this machine and its loadable segments fit. -/
theorem load_eq_none_iff (path : String) (s : State) (hh : Header.ofFile file = .ok h)
    (ht : h.segments file = .ok table) :
    (load path file s).2 = none ↔
      h.machine = riscv ∧ ∀ x ∈ table.filter Segment.isLoadable, x.Fits file s.mem := by
  by_cases hm : h.machine = riscv
  · rw [load_eq path s hh hm ht]
    constructor
    · exact fun hnone => ⟨hm, fits_of_loadSegments hnone⟩
    · rintro ⟨-, hfit⟩
      obtain ⟨m, hl, -⟩ := loadSegments_of_fits path hfit
      rw [hl]
  · rw [load_of_foreign path s hh hm]
    exact ⟨nofun, fun hboth => absurd hboth.1 hm⟩

/-- **An executable is loaded byte by byte.** A file that can be read is loaded just if it
is for this machine and each of its loadable segments ends before the address space
does, is in the file, and lies in memory. Then the program counter is its entry point,
and a byte of memory is that of the last loadable segment in the table that covers its
address, zero where this is behind the segment's bytes in the file; a byte that none
covers stays. -/
theorem load_segments (path : String) (s : State) (hh : Header.ofFile file = .ok h)
    (ht : h.segments file = .ok table) :
    ((load path file s).2 = none ↔
      h.machine = riscv ∧ ∀ x ∈ table, x.type = loadable → x.Fits file s.mem) ∧
    ((load path file s).2 = none →
      (load path file s).1.cpu = { s.cpu with pc := h.entry } ∧
      (load path file s).1.mem.capacity = s.mem.capacity ∧
      ∀ a,
        (∀ before x after, table = before ++ x :: after → x.type = loadable → x.covers a →
          (∀ y ∈ after, y.type = loadable → ¬y.covers a) →
          (load path file s).1.mem.byteAt a =
            if a - x.address.toNat < x.fileSize.toNat then
              file.getD (x.offset + (a - x.address.toNat)) 0
            else 0) ∧
        ((∀ x ∈ table, x.type = loadable → ¬x.covers a) →
          (load path file s).1.mem.byteAt a = s.mem.byteAt a)) := by
  have hiff := load_eq_none_iff path s hh ht
  refine ⟨?_, fun hnone => ?_⟩
  · rw [hiff]
    simp only [List.mem_filter, isLoadable_iff, and_imp]
  · obtain ⟨hm, hfit⟩ := hiff.mp hnone
    obtain ⟨m, hl, hc, hb⟩ := loadSegments_of_fits path hfit
    rw [load_eq path s hh hm ht, hl]
    refine ⟨rfl, hc, fun a => ⟨?_, fun hnone => ?_⟩⟩
    · rintro before x after rfl hx hcov hlast
      rw [hb, List.filter_append, List.filter_cons_of_pos (isLoadable_iff.mpr hx),
        byteAfter_of_last _ hcov, Segment.byteFor]
      intro y hy
      obtain ⟨hmem, hload⟩ := List.mem_filter.mp hy
      exact hlast y hmem (isLoadable_iff.mp hload)
    · rw [hb, byteAfter_of_none]
      intro x hx
      obtain ⟨hmem, hload⟩ := List.mem_filter.mp hx
      exact hnone x hmem (isLoadable_iff.mp hload)

/-- Two segments in the order of bytes that has the highest first: the second lies in
the first, which is longer in memory than in the file. -/
def twoSegments : List Byte :=
  [0x7f, 0x45, 0x4c, 0x46, 1, 2, 1, 0, 0, 0, 0, 0, 0, 0, 0, 0] ++
  [0, 2, 0, 0xf3, 0, 0, 0, 1, 0, 0, 0, 4, 0, 0, 0, 52, 0, 0, 0, 0, 0, 0, 0, 0] ++
  [0, 52, 0, 32, 0, 2, 0, 0, 0, 0, 0, 0] ++
  [0, 0, 0, 1, 0, 0, 0, 0, 0, 0, 0, 3, 0, 0, 0, 3, 0, 0, 0, 2, 0, 0, 0, 4] ++
  [0, 0, 0, 0, 0, 0, 0, 0] ++
  [0, 0, 0, 1, 0, 0, 0, 2, 0, 0, 0, 5, 0, 0, 0, 5, 0, 0, 0, 1, 0, 0, 0, 1] ++
  [0, 0, 0, 0, 0, 0, 0, 0]

/-- Nothing has been loaded yet. -/
def unloaded : State := ⟨.reset, Memory.zeroed 2⟩

theorem load_segments_of_twoSegments :
    ∃ s : State, load "two" twoSegments unloaded = (s, none) ∧
      s.cpu.pc = 4 ∧ s.mem.byteAt 4 = 0x45 ∧ s.mem.byteAt 5 = 0x4c ∧ s.mem.byteAt 6 = 0 := by
  have hh : Header.ofFile twoSegments = .ok ⟨.big, 243, 4, 52, 0, 32, 2, 0⟩ := rfl
  have ht : Header.segments ⟨.big, 243, 4, 52, 0, 32, 2, 0⟩ twoSegments =
      .ok [⟨1, 0, 3, 2, 4⟩, ⟨1, 2, 5, 1, 1⟩] := rfl
  obtain ⟨hiff, hloaded⟩ := load_segments "two" unloaded hh ht
  have hnone := hiff.mpr ⟨rfl, by decide⟩
  obtain ⟨hcpu, -, hbyte⟩ := hloaded hnone
  refine ⟨(load "two" twoSegments unloaded).1, Prod.ext rfl hnone, congrArg Cpu.pc hcpu, ?_, ?_, ?_⟩
  · exact (hbyte 4).1 [] _ _ rfl rfl (by decide) (by decide)
  · exact (hbyte 5).1 [_] _ [] rfl rfl (by decide) nofun
  · exact (hbyte 6).1 [] _ _ rfl rfl (by decide) (by decide)

end Elf

end FiveStage
