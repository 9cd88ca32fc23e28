import FiveStage.Proofs.Assembly

/-
  Reach — how far branches, jumps and upper immediates get

  The immediate of a branch has thirteen bits, counting the lowest one, which is zero
  and not encoded; that of a jump has twenty-one, and an upper immediate in its place
  is a whole word. Execution extends each from one bit less, so the top bit drops
  out. Of this nothing is seen in the inner half of the range; a number from the outer
  half is taken for one in the inner half, as far away as this half is wide.

  What is proved:
    1. `leads_signExtend` — what a field is taken for that is extended from one bit less
       than it has: its number in the inner half of the range, another in the outer.
    2. `raises_signExtend`, `Offset.leads` — so for upper immediates, which are right if
       their two top bits are equal, and for the offsets of branches and jumps.
    3. `exists_executed` — an instruction is encoded, decoded and executed.
    4. `reach_of_immediates` — so how far each of them gets.
-/

namespace FiveStage

open Rv32i (signed condition?)

/-! ## One bit less -/

/-- `t` is the sum of `base` and `k` as it comes out where only terms from `-half` up to
`half` are told apart: a term beyond is taken for another, `2 * half` away. -/
structure Leads (half : Int) (base : Word) (k : Int) (t : Word) : Prop where
  exact_iff : t = base + BitVec.ofInt 32 k ↔ -half ≤ k ∧ k < half
  above : half ≤ k → t = base + BitVec.ofInt 32 (k - 2 * half)
  below : k < -half → t = base + BitVec.ofInt 32 (k + 2 * half)

namespace Word

theorem emod_eq_of_ofInt_eq {x y : Int} (h : BitVec.ofInt 32 x = BitVec.ofInt 32 y) :
    x % 2 ^ 32 = y % 2 ^ 32 := by
  have hn := congrArg BitVec.toNat h
  rw [BitVec.toNat_ofInt, BitVec.toNat_ofInt] at hn
  omega

/-- What is left of a number in two's complement without its top bit. -/
theorem bmod_cases {half : Nat} {k : Int} (h : -(2 * half : Int) ≤ k ∧ k < 2 * half) :
    (-(half : Int) ≤ k ∧ k < half) ∧ Int.bmod k (2 * half) = k ∨
      (half : Int) ≤ k ∧ Int.bmod k (2 * half) = k - 2 * half ∨
      k < -(half : Int) ∧ Int.bmod k (2 * half) = k + 2 * half := by
  have hb : ((2 * half : Nat) : Int) = 2 * half := by push_cast; rfl
  by_cases hin : -(half : Int) ≤ k ∧ k < half
  · exact .inl ⟨hin, Int.bmod_eq_of_le_mul_two (by omega) (by omega)⟩
  · right
    by_cases ha : (half : Int) ≤ k
    · refine .inl ⟨ha, ?_⟩
      rw [← Int.sub_bmod_right, hb]
      exact Int.bmod_eq_of_le_mul_two (by omega) (by omega)
    · refine .inr ⟨by omega, ?_⟩
      rw [← Int.add_bmod_right, hb]
      exact Int.bmod_eq_of_le_mul_two (by omega) (by omega)

theorem leads_bmod {half : Nat} (base : Word) {k : Int} (h0 : 0 < half) (hh : 2 * half < 2 ^ 32)
    (h : -(2 * half : Int) ≤ k ∧ k < 2 * half) :
    Leads half base k (base + BitVec.ofInt 32 (Int.bmod k (2 * half))) := by
  have hne {z : Int} (hz : z = k - 2 * half ∨ z = k + 2 * half) :
      base + BitVec.ofInt 32 z ≠ base + BitVec.ofInt 32 k := by
    intro he
    have hi := emod_eq_of_ofInt_eq ((BitVec.add_right_inj base).mp he)
    omega
  rcases bmod_cases h with ⟨hin, hk⟩ | ⟨hout, hk⟩ | ⟨hout, hk⟩ <;> rw [hk]
  · exact ⟨⟨fun _ => hin, fun _ => rfl⟩, fun ha => by omega, fun hb => by omega⟩
  · exact ⟨⟨fun he => absurd he (hne (.inl rfl)), fun hi => by omega⟩, fun _ => rfl,
      fun hb => by omega⟩
  · exact ⟨⟨fun he => absurd he (hne (.inr rfl)), fun hi => by omega⟩, fun ha => by omega,
      fun _ => rfl⟩

/-- **A field that is extended from one bit less** than it has is taken for its number in
the inner half of the range, and for one on the other side of zero in the outer. -/
theorem leads_signExtend (base w : Word) {m : Nat} (hm : m ≤ 30) :
    Leads (2 ^ m) base (signed (m + 2) w.toNat) (base + signExtend w (m + 1)) := by
  have hpow : 2 ^ (m + 1) = 2 * 2 ^ m := Nat.pow_succ'
  have hpow' : 2 ^ (m + 2) = 2 * (2 * 2 ^ m) := by rw [Nat.pow_succ', hpow]
  have hle : 2 ^ m ≤ 2 ^ 30 := Nat.pow_le_pow_right (by decide) hm
  have hs : signed (m + 1) w.toNat = Int.bmod (signed (m + 2) w.toNat) (2 * 2 ^ m) := by
    rw [← hpow]
    exact (Int.bmod_bmod_of_dvd (Nat.pow_dvd_pow 2 (by omega))).symm
  have hlo : -((2 ^ (m + 2) : Nat) / 2 : Int) ≤ signed (m + 2) w.toNat :=
    Int.le_bmod (Nat.two_pow_pos _)
  have hhi : signed (m + 2) w.toNat < ((2 ^ (m + 2) : Nat) + 1) / 2 :=
    Int.bmod_lt (Nat.two_pow_pos _)
  rw [hpow'] at hlo hhi
  have hk : -(2 * (2 ^ m : Nat) : Int) ≤ signed (m + 2) w.toNat ∧
      signed (m + 2) w.toNat < 2 * (2 ^ m : Nat) := by omega
  have hl := leads_bmod base (Nat.two_pow_pos m) (by omega) hk
  rw [← hs, ofInt_signed w (by omega)] at hl
  exact_mod_cast hl

end Word

/-! ## Upper immediates -/

/-- An upper immediate at its place in a word. -/
def raised (u : BitVec 20) : Word := BitVec.ofNat 32 (u.toNat * 2 ^ 12)

/-- What a sum with an upper immediate comes to: what it should if the two top bits of
the immediate are equal, else half of all words away. -/
structure Raises (base : Word) (u : BitVec 20) (v : Word) : Prop where
  exact_iff : v = base + raised u ↔ u.getLsbD 18 = u.getLsbD 19
  off : u.getLsbD 18 ≠ u.getLsbD 19 → v = base + raised u + BitVec.ofNat 32 (2 ^ 31)

theorem toNat_raised (u : BitVec 20) : (raised u).toNat = u.toNat * 2 ^ 12 := by
  have hu := u.isLt
  rw [raised, BitVec.toNat_ofNat, Nat.mod_eq_of_lt (by omega)]

theorem raised_eq (u : BitVec 20) : u.setWidth 32 <<< 12 = raised u := by
  have hu := u.isLt
  apply BitVec.eq_of_toNat_eq
  rw [BitVec.toNat_shiftLeft, BitVec.toNat_setWidth_of_le (by decide), Nat.shiftLeft_eq,
    toNat_raised, Nat.mod_eq_of_lt (by omega)]

/-- As a number in two's complement, an upper immediate with two equal top bits lies in
the half of the range around zero. -/
theorem top_bits_eq_iff (u : BitVec 20) : u.getLsbD 18 = u.getLsbD 19 ↔
    -2 ^ 30 ≤ (raised u).toInt ∧ (raised u).toInt < 2 ^ 30 := by
  have hu := u.isLt
  rw [BitVec.toInt_eq_toNat_cond, toNat_raised, BitVec.getLsbD, BitVec.getLsbD,
    Nat.testBit_eq_decide_div_mod_eq, Nat.testBit_eq_decide_div_mod_eq, decide_eq_decide]
  split <;> omega

theorem raises_signExtend (base : Word) (u : BitVec 20) :
    Raises base u (base + Word.signExtend (u.setWidth 32 <<< 12) 31) := by
  have hl := Word.leads_signExtend base (raised u) (m := 30) (Nat.le_refl _)
  rw [Word.signed_toNat] at hl
  rw [raised_eq]
  constructor
  · rw [top_bits_eq_iff, ← hl.exact_iff, BitVec.ofInt_toInt]
  · intro hne
    rw [ne_eq, top_bits_eq_iff] at hne
    rcases Int.lt_or_le (raised u).toInt (-2 ^ 30) with hlt | hge
    · rw [hl.below hlt, BitVec.ofInt_add, BitVec.ofInt_toInt, ← BitVec.add_assoc]
      rfl
    · rw [hl.above (by omega), Int.sub_eq_add_neg, BitVec.ofInt_add, BitVec.ofInt_toInt,
        ← BitVec.add_assoc]
      rfl

/-! ## Offsets -/

/-- An offset of `n + 1` bits, the lowest of them zero. -/
structure Offset (n : Nat) where
  value : Int
  even : value % 2 = 0
  lower : -2 ^ n ≤ value
  upper : value < 2 ^ n

namespace Offset

/-- The offset as a format keeps it, in two's complement. -/
def field {n : Nat} (k : Offset n) : Word := (BitVec.ofInt (n + 1) k.value).setWidth 32

section

variable {n : Nat} (k : Offset n) (hn : n < 32)
include hn

theorem toNat_field : k.field.toNat = (BitVec.ofInt (n + 1) k.value).toNat :=
  BitVec.toNat_setWidth_of_le (by omega)

theorem signed_field : signed (n + 1) k.field.toNat = k.value := by
  have hk := k.lower
  have hk' := k.upper
  have hi : (BitVec.ofInt (n + 1) k.value).toInt = k.value := by
    rw [BitVec.toInt_ofInt, Nat.pow_succ]
    exact Int.bmod_eq_of_le_mul_two (by push_cast; omega) (by push_cast; omega)
  rw [k.toNat_field hn, signed, ← BitVec.toInt_eq_toNat_bmod, hi]

theorem fits_field : k.field.toNat < 2 ^ (n + 1) ∧ k.field.toNat % 2 = 0 := by
  have hd : ((2 : Nat) : Int) ∣ (2 ^ (n + 1) : Nat) :=
    Int.natCast_dvd_natCast.mpr ⟨2 ^ n, Nat.pow_succ'⟩
  have he : k.value % (2 ^ (n + 1) : Nat) % 2 = 0 :=
    (Int.emod_emod_of_dvd k.value hd).trans k.even
  have hlt := (BitVec.ofInt (n + 1) k.value).isLt
  rw [k.toNat_field hn]
  refine ⟨hlt, ?_⟩
  rw [BitVec.toNat_ofInt] at hlt ⊢
  omega

end

theorem leads {m : Nat} (base : Word) (k : Offset (m + 1)) (hm : m ≤ 30) :
    Leads (2 ^ m) base k.value (base + Word.signExtend k.field (m + 1)) := by
  have hl := Word.leads_signExtend base k.field hm
  rwa [k.signed_field (by omega)] at hl

end Offset

/-! ## Instructions with an offset or an upper immediate -/

namespace Instruction

theorem toNat_setWidth_lt {n : Nat} (x : BitVec n) (hn : n ≤ 32) :
    (x.setWidth 32).toNat < 2 ^ n := by
  rw [BitVec.toNat_setWidth_of_le hn]
  exact x.isLt

def branch (funct3 : BitVec 3) (rs1 rs2 : RegName) (k : Offset 12) : Instruction where
  opcode := .branch
  fields := ⟨some (rs1.setWidth 32), some (rs2.setWidth 32), none, some (funct3.setWidth 32), none,
    some k.field⟩
  fits := .b (toNat_setWidth_lt rs1 (by decide)) (toNat_setWidth_lt rs2 (by decide))
    (toNat_setWidth_lt funct3 (by decide)) (k.fits_field (by decide)).1 (k.fits_field (by decide)).2

def jal (rd : RegName) (k : Offset 20) : Instruction where
  opcode := .jal
  fields := ⟨none, none, some (rd.setWidth 32), none, none, some k.field⟩
  fits := .j (toNat_setWidth_lt rd (by decide)) (k.fits_field (by decide)).1
    (k.fits_field (by decide)).2

/-- The two instructions with an upper immediate. -/
def upper (o : Opcode) (ho : o.format = .u) (rd : RegName) (u : BitVec 20) : Instruction where
  opcode := o
  fields := ⟨none, none, some (rd.setWidth 32), none, none, some (u.setWidth 32)⟩
  fits := ho ▸ .u (toNat_setWidth_lt rd (by decide)) (toNat_setWidth_lt u (by decide))

def lui : RegName → BitVec 20 → Instruction := upper .lui rfl

def auipc : RegName → BitVec 20 → Instruction := upper .auipc rfl

/-- The word of an instruction decoded and executed, with the operands it has by
then. -/
def executed (i : Instruction) (pc : Word) (regs : Registers) (v : InFlight.Port → Word) :
    Option (InFlight × Option Word) :=
  ((InFlight.fetched i.word pc).decode? regs).map fun d => (d.withOperands v).execute

theorem exists_executed (i : Instruction) (pc : Word) (regs : Registers)
    (v : InFlight.Port → Word) :
    ∃ d : InFlight, i.executed pc regs v = some d.execute ∧ d.IsDecoded i.word pc i.opcode ∧
      d.fields = i.fields ∧ d.value = v := by
  obtain ⟨d, hd, hdec⟩ := InFlight.exists_decoded pc regs (ofWord?_assemble i.opcode i.fields)
  refine ⟨d.withOperands v, ?_, ⟨hdec.raw, hdec.pc, hdec.opcode, hdec.format, hdec.fields,
    hdec.access, hdec.result⟩, hdec.fields.trans (ofWord_assemble i.fits),
    d.value_withOperands v⟩
  rw [executed, word, hd]
  rfl

end Instruction

/-! ## What execution makes of an immediate -/

namespace InFlight

variable {d : InFlight} {w pc : Word}

/-- A branch whose condition holds. -/
theorem IsDecoded.redirect_branch (h : d.IsDecoded w pc .branch)
    (hc : condition? d.funct3.toNat d.rs1Value.toNat d.rs2Value.toNat = some true) :
    d.execute.2 = some (pc + Word.signExtend d.imm 12) := by
  have hf := AluOp.ofBranch?_eq d.funct3 d.rs1Value d.rs2Value
  rw [hc, Option.map_some, Option.map_eq_some_iff] at hf
  obtain ⟨op, hsel, hz⟩ := hf
  have he : d.effectOf Opcode.branch.format .branch = d.branchEffect := rfl
  rw [branchEffect, hsel] at he
  dsimp only at he
  rw [hz, if_neg (by decide)] at he
  rw [h.redirect_execute, he, ← h.pc]
  rfl

theorem IsDecoded.redirect_jal (h : d.IsDecoded w pc .jal) :
    d.execute.2 = some (pc + Word.signExtend d.imm 20) := by
  rw [h.redirect_execute, ← h.pc]
  rfl

/-- What an upper immediate is added to. -/
def upperBase (o : Opcode) (pc : Word) : Word :=
  match o with
  | .auipc => pc
  | _ => 0

theorem IsDecoded.execute_upper {o : Opcode} (h : d.IsDecoded w pc o) (ho : o.format = .u) :
    d.execute.2 = none ∧
      d.execute.1.result =
        some ⟨d.rd, upperBase o pc + Word.signExtend (d.imm <<< 12) 31⟩ := by
  rw [h.redirect_execute, h.result_execute, ← h.pc]
  cases o with
  | lui => exact ⟨rfl, congrArg (fun x => some (RegWrite.mk d.rd x)) (BitVec.zero_add _).symm⟩
  | auipc => exact ⟨rfl, rfl⟩
  | jal | jalr | branch | load | store | op | opImm => exact absurd ho nofun

end InFlight

/-! ## How far they get -/

namespace Instruction

variable (pc : Word) (regs : Registers) (v : InFlight.Port → Word)

theorem leads_branch {funct3 : BitVec 3} (rs1 rs2 : RegName) (k : Offset 12)
    (hc : condition? funct3.toNat (v .rs1).toNat (v .rs2).toNat = some true) :
    ∃ e t, (branch funct3 rs1 rs2 k).executed pc regs v = some (e, some t) ∧
      Leads (2 ^ 11) pc k.value t := by
  obtain ⟨d, hd, hdec, hf, rfl⟩ := exists_executed (branch funct3 rs1 rs2 k) pc regs v
  have hi : d.imm = k.field := by rw [InFlight.imm, hf]; rfl
  have h3 : d.funct3.toNat = funct3.toNat := by
    rw [InFlight.funct3, hf]
    exact BitVec.toNat_setWidth_of_le (by decide)
  have ht := hdec.redirect_branch (h3 ▸ hc)
  rw [hi] at ht
  exact ⟨d.execute.1, _, hd.trans (congrArg some (Prod.ext rfl ht)), k.leads pc (by decide)⟩

theorem leads_jal (rd : RegName) (k : Offset 20) :
    ∃ e t, (jal rd k).executed pc regs v = some (e, some t) ∧ Leads (2 ^ 19) pc k.value t := by
  obtain ⟨d, hd, hdec, hf, -⟩ := exists_executed (jal rd k) pc regs v
  have hi : d.imm = k.field := by rw [InFlight.imm, hf]; rfl
  have ht := hdec.redirect_jal
  rw [hi] at ht
  exact ⟨d.execute.1, _, hd.trans (congrArg some (Prod.ext rfl ht)), k.leads pc (by decide)⟩

theorem raises_upper (o : Opcode) (ho : o.format = .u) (rd : RegName) (u : BitVec 20) :
    ∃ e x, (upper o ho rd u).executed pc regs v = some (e, none) ∧
      e.result = some ⟨rd.setWidth 32, x⟩ ∧ Raises (InFlight.upperBase o pc) u x := by
  obtain ⟨d, hd, hdec, hf, -⟩ := exists_executed (upper o ho rd u) pc regs v
  have hi : d.imm = u.setWidth 32 := by rw [InFlight.imm, hf]; rfl
  have hr : d.rd = rd.setWidth 32 := by rw [InFlight.rd, hf]; rfl
  obtain ⟨ht, hw⟩ := hdec.execute_upper ho
  rw [hi, hr] at hw
  exact ⟨d.execute.1, _, hd.trans (congrArg some (Prod.ext rfl ht)), hw, raises_signExtend _ u⟩

/-- **How far immediates reach** once an instruction has been encoded, decoded and
executed, wherever it stands and whatever its operands are. A branch that is taken
gets where it should from half of the range of its offset, and a jump from half of
the range of its own; from elsewhere they miss by the size of this half. Upper
immediates with two equal top bits are right, and others half of all words away. -/
theorem reach_of_immediates :
    (∀ (funct3 : BitVec 3) (rs1 rs2 : RegName) (k : Offset 12),
      condition? funct3.toNat (v .rs1).toNat (v .rs2).toNat = some true →
        ∃ e t, (branch funct3 rs1 rs2 k).executed pc regs v = some (e, some t) ∧
          Leads (2 ^ 11) pc k.value t) ∧
    (∀ (rd : RegName) (k : Offset 20), ∃ e t,
      (jal rd k).executed pc regs v = some (e, some t) ∧ Leads (2 ^ 19) pc k.value t) ∧
    (∀ (rd : RegName) (u : BitVec 20), ∃ e x, (lui rd u).executed pc regs v = some (e, none) ∧
      e.result = some ⟨rd.setWidth 32, x⟩ ∧ Raises 0 u x) ∧
    ∀ (rd : RegName) (u : BitVec 20), ∃ e x, (auipc rd u).executed pc regs v = some (e, none) ∧
      e.result = some ⟨rd.setWidth 32, x⟩ ∧ Raises pc u x :=
  ⟨fun _ rs1 rs2 k hc => leads_branch pc regs v rs1 rs2 k hc, leads_jal pc regs v,
    raises_upper pc regs v .lui rfl, raises_upper pc regs v .auipc rfl⟩

/-- The first offset in front of a branch that it does not reach. -/
def beyond : Offset 12 := ⟨2048, by decide, by decide, by decide⟩

/-- A branch that should go 2048 bytes ahead goes as many back. -/
theorem branch_beyond : condition? 0 0 0 = some true ∧
    ∃ e, (branch 0 0 0 beyond).executed 0x1000 .zeroed (fun _ => 0) = some (e, some 0x800) := by
  have hc : condition? 0 0 0 = some true := by decide
  obtain ⟨e, t, he, hl⟩ := (reach_of_immediates 0x1000 .zeroed fun _ => 0).1 0 0 0 beyond hc
  have ht : t = 0x800 := (hl.above (by decide)).trans (by decide)
  exact ⟨hc, e, ht ▸ he⟩

end Instruction

end FiveStage
