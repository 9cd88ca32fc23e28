import FiveStage.Proofs.Conformance

/-
  Assembly — instruction words put together, and decoding as taking apart

  The manual draws a format as a row of boxes, highest bits on the left: each box has
  some bits of a field, and an immediate may be spread over several boxes in any
  order. `Format.layout` is this drawing and `assemble` follows it. Neither knows how
  words are decoded.

  What is proved:
    1. `reads_join`, `join_of_reads` — in a word put together from boxes, each box is
       found where it was put; and a word is told by its boxes.
    2. `fits_ofWord`, `assemble_ofWord` — the fields of a supported word fit its format,
       and put together again they are the word.
    3. `ofWord?_assemble`, `ofWord_assemble` — an opcode and fields that fit its format
       are found again in the word that is put together from them.
    4. `decoding_bijective` — so decoding is a bijection between the supported words and
       the instructions.
-/

namespace FiveStage

/-! ## Layouts -/

/-- What an instruction word is made of. -/
inductive Part where
  | opcode | rd | funct3 | rs1 | rs2 | funct7 | imm

/-- Bits `hi` down to `lo` of a part, side by side in a word. -/
structure Box where
  part : Part
  hi : Nat
  lo : Nat
  ordered : lo ≤ hi
  inside : hi < 32

namespace Box

def of (part : Part) (hi lo : Nat) (ordered : lo ≤ hi := by decide)
    (inside : hi < 32 := by decide) : Box :=
  ⟨part, hi, lo, ordered, inside⟩

def width (b : Box) : Nat := b.hi - b.lo + 1

/-- How many bits a row of boxes takes. -/
def span : List Box → Nat
  | [] => 0
  | b :: rest => b.width + span rest

/-- The bits that a box has of its part. -/
def ofPart (b : Box) (v : Part → Word) : Word := Word.bits (v b.part) b.lo b.hi

/-- As many bits of a word, from bit `n` on. -/
def ofWord (b : Box) (w : Word) (n : Nat) : Word := Word.bits w n (n + (b.hi - b.lo))

/-- The word that a row of boxes spells. -/
def join (v : Part → Word) : List Box → Word
  | [] => 0
  | b :: rest => b.ofPart v <<< span rest ||| join v rest

/-- Every box of a row is found in a word, in its place. -/
def Reads (v : Part → Word) (w : Word) : List Box → Prop
  | [] => True
  | b :: rest => b.ofPart v = b.ofWord w (span rest) ∧ Reads v w rest

end Box

/-- The boxes of a format, as the manual draws them. An upper immediate counts from
the lowest bit that is encoded. -/
def Format.layout : Format → List Box
  | .r => [.of .funct7 6 0, .of .rs2 4 0, .of .rs1 4 0, .of .funct3 2 0, .of .rd 4 0,
      .of .opcode 6 0]
  | .i => [.of .imm 11 0, .of .rs1 4 0, .of .funct3 2 0, .of .rd 4 0, .of .opcode 6 0]
  | .s => [.of .imm 11 5, .of .rs2 4 0, .of .rs1 4 0, .of .funct3 2 0, .of .imm 4 0,
      .of .opcode 6 0]
  | .b => [.of .imm 12 12, .of .imm 10 5, .of .rs2 4 0, .of .rs1 4 0, .of .funct3 2 0,
      .of .imm 4 1, .of .imm 11 11, .of .opcode 6 0]
  | .u => [.of .imm 19 0, .of .rd 4 0, .of .opcode 6 0]
  | .j => [.of .imm 20 20, .of .imm 10 1, .of .imm 11 11, .of .imm 19 12, .of .rd 4 0,
      .of .opcode 6 0]

theorem Format.span_layout (f : Format) : Box.span f.layout = 32 := by
  cases f <;> rfl

/-! ## Rows of boxes -/

namespace Box

variable {v : Part → Word} {w w' : Word}

theorem toNat_ofPart_lt (b : Box) (v : Part → Word) : (b.ofPart v).toNat < 2 ^ b.width :=
  Word.toNat_bits_lt _ b.ordered b.inside

theorem toNat_ofWord (b : Box) (w : Word) {n : Nat} (h : b.width + n ≤ 32) :
    (b.ofWord w n).toNat = w.toNat / 2 ^ n % 2 ^ b.width := by
  unfold width at h
  rw [ofWord, Word.toNat_bits w (by omega) (by omega), Nat.add_sub_cancel_left]
  rfl

theorem toNat_join {l : List Box} (h : span l ≤ 32) : (join v l).toNat < 2 ^ span l := by
  induction l with
  | nil => exact Nat.zero_lt_one
  | cons b rest ih =>
    rw [span] at h
    exact (Fields.toNat_above (b.toNat_ofPart_lt v) (ih (by omega)) h).2

theorem toNat_join_cons {b : Box} {rest : List Box} (h : span (b :: rest) ≤ 32) :
    (join v (b :: rest)).toNat =
      (b.ofPart v).toNat * 2 ^ span rest + (join v rest).toNat := by
  rw [span] at h
  exact (Fields.toNat_above (b.toNat_ofPart_lt v) (toNat_join (by omega)) h).1

/-- A row of boxes looks at the low bits of a word, as many as it takes. -/
theorem Reads.of_low {l : List Box} (hl : span l ≤ 32) (h : Reads v w l)
    (hw : w.toNat % 2 ^ span l = w'.toNat % 2 ^ span l) : Reads v w' l := by
  induction l with
  | nil => trivial
  | cons b rest ih =>
    obtain ⟨hb, hrest⟩ := h
    rw [span] at hl
    rw [span, Nat.add_comm, Nat.pow_add] at hw
    have hlow : w.toNat % 2 ^ span rest = w'.toNat % 2 ^ span rest := by
      rw [← Nat.mod_mul_right_mod w.toNat, hw, Nat.mod_mul_right_mod]
    have hbox : b.ofWord w (span rest) = b.ofWord w' (span rest) := by
      apply BitVec.eq_of_toNat_eq
      rw [toNat_ofWord b w hl, toNat_ofWord b w' hl, ← Nat.mod_mul_right_div_self, hw,
        Nat.mod_mul_right_div_self]
    exact ⟨hb.trans hbox, ih (by omega) hrest hlow⟩

theorem Reads.last {l : List Box} {b : Box} (h : Reads v w (l ++ [b])) :
    b.ofPart v = b.ofWord w 0 := by
  induction l with
  | nil => exact h.1
  | cons c rest ih => exact ih h.2

/-- In the word that a row spells, every box is in its place. -/
theorem reads_join (v : Part → Word) {l : List Box} (hl : span l ≤ 32) :
    Reads v (join v l) l := by
  induction l with
  | nil => trivial
  | cons b rest ih =>
    have hcons := toNat_join_cons (v := v) hl
    rw [span] at hl
    have hlt : (join v rest).toNat < 2 ^ span rest := toNat_join (by omega)
    constructor
    · apply BitVec.eq_of_toNat_eq
      rw [toNat_ofWord b _ hl, hcons, Nat.add_comm,
        Nat.add_mul_div_right _ _ (Nat.two_pow_pos _), Nat.div_eq_of_lt hlt, Nat.zero_add,
        Nat.mod_eq_of_lt (b.toNat_ofPart_lt v)]
    · refine (ih (by omega)).of_low (by omega) ?_
      rw [hcons, Nat.mul_add_mod_self_right]

/-- A word in which every box is in its place is what the row spells, as far as the
row goes. -/
theorem join_of_reads {l : List Box} (hl : span l ≤ 32) (h : Reads v w l) :
    (join v l).toNat = w.toNat % 2 ^ span l := by
  induction l with
  | nil => exact (Nat.mod_one _).symm
  | cons b rest ih =>
    obtain ⟨hb, hrest⟩ := h
    rw [toNat_join_cons hl, hb]
    rw [span] at hl
    rw [ih (by omega) hrest, toNat_ofWord b w hl, span, Nat.add_comm b.width, Nat.pow_add,
      Nat.mod_mul, Nat.mul_comm, Nat.add_comm]

end Box

/-! ## Instructions -/

namespace Fields

/-- Fields that a format can encode: those that it has, each within its width. Offsets
of branches and jumps are even. -/
inductive Fits : Format → Fields → Prop
  | r {rs1 rs2 rd funct3 funct7 : Word} (h1 : rs1.toNat < 32) (h2 : rs2.toNat < 32)
    (hd : rd.toNat < 32) (h3 : funct3.toNat < 8) (h7 : funct7.toNat < 128) :
    Fits .r ⟨some rs1, some rs2, some rd, some funct3, some funct7, none⟩
  | i {rs1 rd funct3 imm : Word} (h1 : rs1.toNat < 32) (hd : rd.toNat < 32)
    (h3 : funct3.toNat < 8) (hi : imm.toNat < 2 ^ 12) :
    Fits .i ⟨some rs1, none, some rd, some funct3, none, some imm⟩
  | s {rs1 rs2 funct3 imm : Word} (h1 : rs1.toNat < 32) (h2 : rs2.toNat < 32)
    (h3 : funct3.toNat < 8) (hi : imm.toNat < 2 ^ 12) :
    Fits .s ⟨some rs1, some rs2, none, some funct3, none, some imm⟩
  | b {rs1 rs2 funct3 imm : Word} (h1 : rs1.toNat < 32) (h2 : rs2.toNat < 32)
    (h3 : funct3.toNat < 8) (hi : imm.toNat < 2 ^ 13) (even : imm.toNat % 2 = 0) :
    Fits .b ⟨some rs1, some rs2, none, some funct3, none, some imm⟩
  | u {rd imm : Word} (hd : rd.toNat < 32) (hi : imm.toNat < 2 ^ 20) :
    Fits .u ⟨none, none, some rd, none, none, some imm⟩
  | j {rd imm : Word} (hd : rd.toNat < 32) (hi : imm.toNat < 2 ^ 21)
    (even : imm.toNat % 2 = 0) : Fits .j ⟨none, none, some rd, none, none, some imm⟩

/-- The parts of a word with an opcode and fields; zero for a field that there is not. -/
def part (x : Fields) (o : Opcode) : Part → Word
  | .opcode => BitVec.ofNat 32 o.code
  | .rd => x.rd.getD 0
  | .funct3 => x.funct3.getD 0
  | .rs1 => x.rs1.getD 0
  | .rs2 => x.rs2.getD 0
  | .funct7 => x.funct7.getD 0
  | .imm => x.imm.getD 0

end Fields

/-- The word with an opcode and fields, in the layout of its format. -/
def assemble (o : Opcode) (x : Fields) : Word := Box.join (x.part o) o.format.layout

/-- An opcode with fields that its format can encode. -/
structure Instruction where
  opcode : Opcode
  fields : Fields
  fits : fields.Fits opcode.format

def Instruction.word (i : Instruction) : Word := assemble i.opcode i.fields

/-- A branch to an offset of 44, if x1 is not less than x2. -/
example : assemble .branch ⟨some 1, some 2, none, some 5, none, some 44⟩ = 0x0220d663 := by decide

/-! ## Bits of a part and bits of the word -/

namespace Word

open Rv32i (field)

theorem bits_eq_bits_iff {x w : Word} {a b lo hi : Nat} (hx : a ≤ b ∧ b < 32)
    (hw : lo ≤ hi ∧ hi < 32) :
    bits x a b = bits w lo hi ↔ field x.toNat a (b - a + 1) = field w.toNat lo (hi - lo + 1) := by
  rw [← field_eq x hx, ← field_eq w hw, BitVec.toNat_inj]

/-- A range of bits that stands alone. -/
theorem bits_zero_bits (w : Word) (lo hi : Nat) (h : lo ≤ hi ∧ hi < 32) :
    bits (bits w lo hi) 0 (hi - lo) = bits w lo hi := by
  apply BitVec.eq_of_toNat_eq
  rw [toNat_bits _ (Nat.zero_le _) (by omega), Nat.pow_zero, Nat.div_one, Nat.sub_zero]
  exact Nat.mod_eq_of_lt (toNat_bits_lt w h.1 h.2)

theorem bits_eq_self {w : Word} {hi : Nat} (hh : hi < 32) (h : w.toNat < 2 ^ (hi + 1)) :
    bits w 0 hi = w := by
  apply BitVec.eq_of_toNat_eq
  rw [toNat_bits w (Nat.zero_le hi) hh, Nat.pow_zero, Nat.div_one, Nat.sub_zero,
    Nat.mod_eq_of_lt h]

end Word

theorem Opcode.bits_of_ofWord? {w : Word} {o : Opcode} (h : ofWord? w = some o) :
    Word.bits (BitVec.ofNat 32 o.code) 0 6 = Word.bits w 0 6 := by
  have hw : (Word.bits w 0 6).toNat = o.code :=
    (Word.field_eq w (by decide)).trans (code_of_ofWord? h)
  rw [Word.eq_ofNat hw]
  cases o <;> rfl

theorem Opcode.ofWord?_of_bits {w : Word} {o : Opcode}
    (h : Word.bits (BitVec.ofNat 32 o.code) 0 6 = Word.bits w 0 6) : ofWord? w = some o := by
  apply ofWord?_of_code
  have hw := (Word.bits_eq_bits_iff (by decide) (by decide)).mp h
  refine hw.symm.trans ?_
  cases o <;> rfl

namespace Fields

open Rv32i (field)

/-! The boxes of the immediates that are spread over a word. -/

theorem field_lt (n lo width : Nat) : field n lo width < 2 ^ width :=
  Nat.mod_lt _ (Nat.two_pow_pos _)

theorem bits_immS (w : Word) :
    Word.bits (immS w) 5 11 = Word.bits w 25 31 ∧ Word.bits (immS w) 0 4 = Word.bits w 7 11 := by
  have hhi := field_lt w.toNat 25 7
  have hlo := field_lt w.toNat 7 5
  simp (disch := decide) only [Word.bits_eq_bits_iff, toNat_immS, Rv32i.immS, Nat.reduceSub,
    Nat.reduceAdd]
  generalize field w.toNat 25 7 = a, field w.toNat 7 5 = b at hhi hlo ⊢
  unfold field
  omega

theorem bits_immB (w : Word) :
    Word.bits (immB w) 12 12 = Word.bits w 31 31 ∧ Word.bits (immB w) 5 10 = Word.bits w 25 30 ∧
      Word.bits (immB w) 1 4 = Word.bits w 8 11 ∧ Word.bits (immB w) 11 11 = Word.bits w 7 7 := by
  have h31 := field_lt w.toNat 31 1
  have h25 := field_lt w.toNat 25 6
  have h8 := field_lt w.toNat 8 4
  have h7 := field_lt w.toNat 7 1
  simp (disch := decide) only [Word.bits_eq_bits_iff, toNat_immB, Rv32i.immB, Nat.reduceSub,
    Nat.reduceAdd]
  generalize field w.toNat 31 1 = a, field w.toNat 25 6 = b, field w.toNat 8 4 = c,
    field w.toNat 7 1 = d at h31 h25 h8 h7 ⊢
  unfold field
  omega

theorem bits_immJ (w : Word) :
    Word.bits (immJ w) 20 20 = Word.bits w 31 31 ∧ Word.bits (immJ w) 1 10 = Word.bits w 21 30 ∧
      Word.bits (immJ w) 11 11 = Word.bits w 20 20 ∧
      Word.bits (immJ w) 12 19 = Word.bits w 12 19 := by
  have h31 := field_lt w.toNat 31 1
  have h21 := field_lt w.toNat 21 10
  have h20 := field_lt w.toNat 20 1
  have h12 := field_lt w.toNat 12 8
  simp (disch := decide) only [Word.bits_eq_bits_iff, toNat_immJ, Rv32i.immJ, Nat.reduceSub,
    Nat.reduceAdd]
  generalize field w.toNat 31 1 = a, field w.toNat 21 10 = b, field w.toNat 20 1 = c,
    field w.toNat 12 8 = d at h31 h21 h20 h12 ⊢
  unfold field
  omega

theorem toNat_immS_lt (w : Word) : (immS w).toNat < 2 ^ 12 := by
  have hhi := field_lt w.toNat 25 7
  have hlo := field_lt w.toNat 7 5
  rw [toNat_immS, Rv32i.immS]
  omega

theorem toNat_immB_lt (w : Word) : (immB w).toNat < 2 ^ 13 ∧ (immB w).toNat % 2 = 0 := by
  have h31 := field_lt w.toNat 31 1
  have h25 := field_lt w.toNat 25 6
  have h8 := field_lt w.toNat 8 4
  have h7 := field_lt w.toNat 7 1
  rw [toNat_immB, Rv32i.immB]
  omega

theorem toNat_immJ_lt (w : Word) : (immJ w).toNat < 2 ^ 21 ∧ (immJ w).toNat % 2 = 0 := by
  have h31 := field_lt w.toNat 31 1
  have h21 := field_lt w.toNat 21 10
  have h20 := field_lt w.toNat 20 1
  have h12 := field_lt w.toNat 12 8
  rw [toNat_immJ, Rv32i.immJ]
  omega

/-! ## A word taken apart and put together again -/

open Box

/-- What decoding cuts out of a word are the boxes of its format. -/
theorem reads_ofWord (f : Format) {w : Word} {o : Opcode} (ho : Opcode.ofWord? w = some o) :
    Reads ((ofWord f w).part o) w f.layout := by
  have hop := Opcode.bits_of_ofWord? ho
  have hrd := Word.bits_zero_bits w 7 11 (by decide)
  have h3 := Word.bits_zero_bits w 12 14 (by decide)
  have h1 := Word.bits_zero_bits w 15 19 (by decide)
  have h2 := Word.bits_zero_bits w 20 24 (by decide)
  cases f with
  | r =>
    have h7 := Word.bits_zero_bits w 25 31 (by decide)
    exact ⟨h7, h2, h1, h3, hrd, hop, trivial⟩
  | i =>
    have hi := Word.bits_zero_bits w 20 31 (by decide)
    exact ⟨hi, h1, h3, hrd, hop, trivial⟩
  | s =>
    obtain ⟨h11, h4⟩ := bits_immS w
    exact ⟨h11, h2, h1, h3, h4, hop, trivial⟩
  | b =>
    obtain ⟨h12, h10, h4, h11⟩ := bits_immB w
    exact ⟨h12, h10, h2, h1, h3, h4, h11, hop, trivial⟩
  | u =>
    have hi := Word.bits_zero_bits w 12 31 (by decide)
    exact ⟨hi, hrd, hop, trivial⟩
  | j =>
    obtain ⟨h20, h10, h11, h19⟩ := bits_immJ w
    exact ⟨h20, h10, h11, h19, hrd, hop, trivial⟩

theorem fits_ofWord (f : Format) (w : Word) : (ofWord f w).Fits f := by
  have h1 := rs1Of_lt w
  have h2 := rs2Of_lt w
  have hd := rdOf_lt w
  have h3 : (funct3Of w).toNat < 8 := Word.toNat_bits_lt w (by decide) (by decide)
  cases f with
  | r => exact .r h1 h2 hd h3 (Word.toNat_bits_lt w (by decide) (by decide))
  | i => exact .i h1 hd h3 (Word.toNat_bits_lt w (by decide) (by decide))
  | s => exact .s h1 h2 h3 (toNat_immS_lt w)
  | b => exact .b h1 h2 h3 (toNat_immB_lt w).1 (toNat_immB_lt w).2
  | u => exact .u hd (Word.toNat_bits_lt w (by decide) (by decide))
  | j => exact .j hd (toNat_immJ_lt w).1 (toNat_immJ_lt w).2

end Fields

theorem assemble_ofWord {w : Word} {o : Opcode} (ho : Opcode.ofWord? w = some o) :
    assemble o (Fields.ofWord o.format w) = w := by
  have hspan := o.format.span_layout
  apply BitVec.eq_of_toNat_eq
  rw [assemble, Box.join_of_reads (by omega) (Fields.reads_ofWord o.format ho), hspan,
    Nat.mod_eq_of_lt w.isLt]

/-! ## A word put together and taken apart again -/

namespace Fields

open Rv32i (field)
open Box

theorem reads_assemble (o : Opcode) (x : Fields) :
    Reads (x.part o) (assemble o x) o.format.layout :=
  reads_join (x.part o) (Nat.le_of_eq o.format.span_layout)

variable {v : Part → Word} {x : Fields} {o : Opcode} {f : Format} {w : Word}

/-- The opcode is the last box of every format. -/
theorem opcode_of_reads (h : Reads v w f.layout) :
    Word.bits (v .opcode) 0 6 = Word.bits w 0 6 := by
  have hl : f.layout = f.layout.dropLast ++ [.of .opcode 6 0] := by cases f <;> rfl
  rw [hl] at h
  exact h.last

/-- A part that has one box is what is cut out of the word there. -/
theorem eq_of_box {y : Word} {hi a b : Nat} (h : Word.bits y 0 hi = Word.bits w a b)
    (hh : hi < 32) (hy : y.toNat < 2 ^ (hi + 1)) : Word.bits w a b = y :=
  h.symm.trans (Word.bits_eq_self hh hy)

theorem immS_of_boxes {imm : Word} (hi : imm.toNat < 2 ^ 12)
    (h11 : Word.bits imm 5 11 = Word.bits w 25 31) (h4 : Word.bits imm 0 4 = Word.bits w 7 11) :
    immS w = imm := by
  simp (disch := decide) only [Word.bits_eq_bits_iff, Nat.reduceSub, Nat.reduceAdd] at h11 h4
  apply BitVec.eq_of_toNat_eq
  rw [toNat_immS, Rv32i.immS, ← h11, ← h4]
  unfold field
  omega

theorem immB_of_boxes {imm : Word} (hi : imm.toNat < 2 ^ 13) (even : imm.toNat % 2 = 0)
    (h12 : Word.bits imm 12 12 = Word.bits w 31 31) (h10 : Word.bits imm 5 10 = Word.bits w 25 30)
    (h4 : Word.bits imm 1 4 = Word.bits w 8 11) (h11 : Word.bits imm 11 11 = Word.bits w 7 7) :
    immB w = imm := by
  simp (disch := decide) only [Word.bits_eq_bits_iff, Nat.reduceSub, Nat.reduceAdd]
    at h12 h10 h4 h11
  apply BitVec.eq_of_toNat_eq
  rw [toNat_immB, Rv32i.immB, ← h12, ← h10, ← h4, ← h11]
  unfold field
  omega

theorem immJ_of_boxes {imm : Word} (hi : imm.toNat < 2 ^ 21) (even : imm.toNat % 2 = 0)
    (h20 : Word.bits imm 20 20 = Word.bits w 31 31) (h10 : Word.bits imm 1 10 = Word.bits w 21 30)
    (h11 : Word.bits imm 11 11 = Word.bits w 20 20)
    (h19 : Word.bits imm 12 19 = Word.bits w 12 19) : immJ w = imm := by
  simp (disch := decide) only [Word.bits_eq_bits_iff, Nat.reduceSub, Nat.reduceAdd]
    at h20 h10 h11 h19
  apply BitVec.eq_of_toNat_eq
  rw [toNat_immJ, Rv32i.immJ, ← h20, ← h10, ← h11, ← h19]
  unfold field
  omega

/-- The fields that fit a format are cut out of a word in which their boxes are. -/
theorem ofWord_of_reads (hx : x.Fits f) (h : Reads (x.part o) w f.layout) :
    ofWord f w = x := by
  cases hx with
  | r h1 h2 hd h3 h7 =>
    obtain ⟨b7, b2, b1, b3, bd, -, -⟩ := h
    simp only [ofWord, mk.injEq, Option.some.injEq, and_true]
    exact ⟨eq_of_box b1 (by decide) h1, eq_of_box b2 (by decide) h2, eq_of_box bd (by decide) hd,
      eq_of_box b3 (by decide) h3, eq_of_box b7 (by decide) h7⟩
  | i h1 hd h3 hi =>
    obtain ⟨bi, b1, b3, bd, -, -⟩ := h
    simp only [ofWord, mk.injEq, Option.some.injEq, true_and]
    exact ⟨eq_of_box b1 (by decide) h1, eq_of_box bd (by decide) hd, eq_of_box b3 (by decide) h3,
      eq_of_box bi (by decide) hi⟩
  | s h1 h2 h3 hi =>
    obtain ⟨b11, b2, b1, b3, b4, -, -⟩ := h
    simp only [ofWord, mk.injEq, Option.some.injEq, true_and]
    exact ⟨eq_of_box b1 (by decide) h1, eq_of_box b2 (by decide) h2, eq_of_box b3 (by decide) h3,
      immS_of_boxes hi b11 b4⟩
  | b h1 h2 h3 hi even =>
    obtain ⟨b12, b10, b2, b1, b3, b4, b11, -, -⟩ := h
    simp only [ofWord, mk.injEq, Option.some.injEq, true_and]
    exact ⟨eq_of_box b1 (by decide) h1, eq_of_box b2 (by decide) h2, eq_of_box b3 (by decide) h3,
      immB_of_boxes hi even b12 b10 b4 b11⟩
  | u hd hi =>
    obtain ⟨bi, bd, -, -⟩ := h
    simp only [ofWord, mk.injEq, Option.some.injEq, true_and]
    exact ⟨eq_of_box bd (by decide) hd, eq_of_box bi (by decide) hi⟩
  | j hd hi even =>
    obtain ⟨b20, b10, b11, b19, bd, -, -⟩ := h
    simp only [ofWord, mk.injEq, Option.some.injEq, true_and]
    exact ⟨eq_of_box bd (by decide) hd, immJ_of_boxes hi even b20 b10 b11 b19⟩

end Fields

theorem ofWord?_assemble (o : Opcode) (x : Fields) : Opcode.ofWord? (assemble o x) = some o :=
  Opcode.ofWord?_of_bits (Fields.opcode_of_reads (Fields.reads_assemble o x))

theorem ofWord_assemble {o : Opcode} {x : Fields} (hx : x.Fits o.format) :
    Fields.ofWord o.format (assemble o x) = x :=
  Fields.ofWord_of_reads hx (Fields.reads_assemble o x)

/-! ## Decoding -/

/-- A record has been decoded to an instruction. -/
def InFlight.Shows (d : InFlight) (i : Instruction) : Prop :=
  d.opcode = some i.opcode ∧ d.format = some i.opcode.format ∧ d.fields = i.fields

namespace InFlight

variable {w pc : Word} {o : Opcode} {regs : Registers} {d : InFlight}

/-- What is decoded to an opcode and fields is the word that they are assembled to. -/
theorem assemble_of_decode? (h : (fetched w pc).decode? regs = some d) (ho : d.opcode = some o) :
    assemble o d.fields = w := by
  obtain ⟨o', ho', hdec⟩ := isDecoded_of_decode? h
  obtain rfl := Option.some.inj (hdec.opcode.symm.trans ho)
  rw [hdec.fields]
  exact assemble_ofWord ho'

/-- **Decoding is a bijection between the supported words and the instructions**,
wherever a word comes from and whatever the registers hold: a supported word is
decoded to an instruction and is the word of it; the word of an instruction is decoded
to it; and no two words are decoded alike. -/
theorem decoding_bijective (pc : Word) (regs : Registers) :
    (∀ w, isSupported w = true →
      ∃ d i, (fetched w pc).decode? regs = some d ∧ d.Shows i ∧ i.word = w) ∧
    (∀ i : Instruction, ∃ d, (fetched i.word pc).decode? regs = some d ∧ d.Shows i) ∧
    ∀ w w' d d', (fetched w pc).decode? regs = some d → (fetched w' pc).decode? regs = some d' →
      d.opcode = d'.opcode → d.fields = d'.fields → w = w' := by
  refine ⟨fun w hw => ?_, fun i => ?_, fun w w' d d' h h' ho hf => ?_⟩
  · obtain ⟨o, ho⟩ := Option.isSome_iff_exists.mp hw
    obtain ⟨d, hd, hdec⟩ := exists_decoded pc regs ho
    have hfits : d.fields.Fits o.format := hdec.fields ▸ Fields.fits_ofWord o.format w
    exact ⟨d, ⟨o, d.fields, hfits⟩, hd, ⟨hdec.opcode, hdec.format, rfl⟩,
      assemble_of_decode? hd hdec.opcode⟩
  · obtain ⟨d, hd, hdec⟩ := exists_decoded pc regs (ofWord?_assemble i.opcode i.fields)
    exact ⟨d, hd, hdec.opcode, hdec.format, hdec.fields.trans (ofWord_assemble i.fits)⟩
  · obtain ⟨o, -, hdec⟩ := isDecoded_of_decode? h
    rw [← assemble_of_decode? h hdec.opcode, hf,
      assemble_of_decode? h' (ho.symm.trans hdec.opcode)]

end InFlight

end FiveStage
