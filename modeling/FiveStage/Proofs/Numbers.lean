import FiveStage.Alu
import FiveStage.Proofs.Effects
import FiveStage.Proofs.Rv32i

/-
  Numbers — words read as numbers

  The machine puts words together from bits, and its arithmetic unit works on words.
  Here both are read as numbers, as `Rv32i` has them.

  What is proved:
    1. `toInt_signExtend` — a sign-extended word is the two's-complement number of its
       low bits.
    2. `toNat_immI` to `toNat_immJ` — the immediates of a word are the sums that the
       formats describe.
    3. `ofFunct?_eq`, `ofImmediate?_eq`, `ofBranch?_eq` — each function code selects the
       operation on numbers that it selects in `Rv32i`, and no other code selects any.
-/

namespace FiveStage

open Rv32i

namespace Word

/-! ## Words and numbers -/

theorem toNat_ofInt (z : Int) : (BitVec.ofInt 32 z).toNat = wrap z := BitVec.toNat_ofInt ..

@[simp] theorem ofInt_toNat (w : Word) : BitVec.ofInt 32 (w.toNat : Int) = w := by
  rw [BitVec.ofInt_natCast, BitVec.ofNat_toNat, BitVec.setWidth_eq]

/-- A word is told by its number, as a pattern of words has it. -/
theorem eq_ofNat {w : Word} {n : Nat} (h : w.toNat = n) : w = BitVec.ofNat 32 n := by
  rw [← h, BitVec.ofNat_toNat, BitVec.setWidth_eq]

theorem signed_toNat (w : Word) : signed 32 w.toNat = w.toInt :=
  (BitVec.toInt_eq_toNat_bmod w).symm

theorem field_eq (w : Word) {lo hi : Nat} (h : lo ≤ hi ∧ hi < 32) :
    (bits w lo hi).toNat = field w.toNat lo (hi - lo + 1) := toNat_bits w h.1 h.2

theorem getLsbD_lowMask {width i : Nat} (hi : i < 32) :
    (lowMask width).getLsbD i = decide (i < width) := by
  simp only [lowMask, BitVec.getLsbD_ushiftRight, BitVec.getLsbD_allOnes]
  rw [decide_eq_decide]
  omega

theorem getLsbD_signExtend (w : Word) {width i : Nat} (hi : i < 32) :
    (signExtend w width).getLsbD i = w.getLsbD (if i < width then i else width - 1) := by
  unfold signExtend
  by_cases hiw : i < width <;> cases hs : w.getLsbD (width - 1) <;>
    simp only [BitVec.getLsbD_or, BitVec.getLsbD_and, BitVec.getLsbD_xor,
      BitVec.getLsbD_allOnes, getLsbD_lowMask hi, hi, hiw, hs, if_true, if_false, decide_true,
      decide_false, Bool.false_eq_true, Bool.and_true, Bool.and_false, Bool.or_true,
      Bool.or_false, Bool.xor_true, Bool.xor_false, Bool.not_true]

theorem signExtend_eq (w : Word) {width : Nat} (h : 1 ≤ width) :
    signExtend w width = (w.setWidth width).signExtend 32 := by
  apply BitVec.eq_of_getLsbD_eq
  intro i hi
  rw [getLsbD_signExtend w hi, BitVec.getLsbD_signExtend]
  by_cases hiw : i < width
  · simp [-BitVec.getLsbD_eq_getElem, hi, hiw]
  · have hpos : 0 < width := Nat.lt_of_lt_of_le Nat.zero_lt_one h
    simp [-BitVec.getLsbD_eq_getElem, hi, hiw, BitVec.msb_setWidth, hpos]

/-- A sign-extended word is the number that its low bits are in two's complement. -/
theorem toInt_signExtend (w : Word) {width : Nat} (h : 1 ≤ width ∧ width ≤ 32) :
    (signExtend w width).toInt = signed width w.toNat := by
  rw [signExtend_eq w h.1, BitVec.toInt_signExtend_of_le h.2, BitVec.toInt_setWidth]
  rfl

theorem ofInt_signed (w : Word) {width : Nat} (h : 1 ≤ width ∧ width ≤ 32) :
    BitVec.ofInt 32 (signed width w.toNat) = signExtend w width := by
  rw [← toInt_signExtend w h, BitVec.ofInt_toInt]

theorem toNat_signExtend (w : Word) {width : Nat} (h : 1 ≤ width ∧ width ≤ 32) :
    (signExtend w width).toNat = wrap (signed width w.toNat) := by
  rw [← ofInt_signed w h, toNat_ofInt]

end Word

namespace Fields

/-! ## Immediates -/

/-- Two ranges of bits side by side: their numbers are put together as digits are. -/
theorem toNat_above {x y : Word} {j n : Nat} (hx : x.toNat < 2 ^ j) (hy : y.toNat < 2 ^ n)
    (h : j + n ≤ 32) :
    (x <<< n ||| y).toNat = x.toNat * 2 ^ n + y.toNat ∧ (x <<< n ||| y).toNat < 2 ^ (j + n) := by
  have hlt : x.toNat * 2 ^ n + y.toNat < 2 ^ (j + n) := by
    have := Nat.mul_le_mul_right (2 ^ n) hx
    rw [Nat.pow_add]
    rw [Nat.succ_mul] at this
    omega
  have hle : 2 ^ (j + n) ≤ 2 ^ 32 := Nat.pow_le_pow_right (by decide) h
  have heq : (x <<< n ||| y).toNat = x.toNat * 2 ^ n + y.toNat := by
    rw [BitVec.toNat_or, BitVec.toNat_shiftLeft, Nat.shiftLeft_eq, Nat.mod_eq_of_lt (by omega),
      Nat.mul_comm, Nat.two_pow_add_eq_or_of_lt hy]
  exact ⟨heq, heq ▸ hlt⟩

/-- Four ranges of bits and a zero. -/
theorem toNat_joined {a b c d : Word} {k l m n : Nat} (ha : a.toNat < 2 ^ k) (hb : b.toNat < 2 ^ l)
    (hc : c.toNat < 2 ^ m) (hd : d.toNat < 2 ^ n) (h : k + l + m + n + 1 ≤ 32) :
    ((a <<< (l + m + n) ||| b <<< (m + n) ||| c <<< n ||| d) <<< 1).toNat =
      (((a.toNat * 2 ^ l + b.toNat) * 2 ^ m + c.toNat) * 2 ^ n + d.toNat) * 2 := by
  -- joined one after the other, every range stands above all that is joined so far
  have hj : (a <<< (l + m + n) ||| b <<< (m + n) ||| c <<< n ||| d) <<< 1 =
      (((a <<< l ||| b) <<< m ||| c) <<< n ||| d) <<< 1 ||| 0 := by
    simp only [BitVec.shiftLeft_or_distrib, ← BitVec.shiftLeft_add, Nat.add_assoc]
    exact BitVec.or_zero.symm
  obtain ⟨hab, hab'⟩ := toNat_above ha hb (by omega)
  obtain ⟨hbc, hbc'⟩ := toNat_above hab' hc (by omega)
  obtain ⟨hcd, hcd'⟩ := toNat_above hbc' hd (by omega)
  rw [hj, (toNat_above (y := 0) (n := 1) hcd' (by decide) (by omega)).1, hcd, hbc, hab]
  rfl

theorem toNat_immI (w : Word) : (immI w).toNat = Rv32i.immI w.toNat :=
  Word.field_eq w (by decide)

theorem toNat_immS (w : Word) : (immS w).toNat = Rv32i.immS w.toNat := by
  have hi : (Word.bits w 25 31).toNat < 2 ^ 7 := Word.toNat_bits_lt w (by decide) (by decide)
  have lo : (Word.bits w 7 11).toNat < 2 ^ 5 := Word.toNat_bits_lt w (by decide) (by decide)
  rw [← immS_eq, (toNat_above hi lo (by decide)).1]
  simp (disch := decide) only [Word.field_eq]
  rfl

theorem toNat_immB (w : Word) : (immB w).toNat = Rv32i.immB w.toNat := by
  have h31 : (Word.bits w 31 31).toNat < 2 ^ 1 := Word.toNat_bits_lt w (by decide) (by decide)
  have h7 : (Word.bits w 7 7).toNat < 2 ^ 1 := Word.toNat_bits_lt w (by decide) (by decide)
  have h25 : (Word.bits w 25 30).toNat < 2 ^ 6 := Word.toNat_bits_lt w (by decide) (by decide)
  have h8 : (Word.bits w 8 11).toNat < 2 ^ 4 := Word.toNat_bits_lt w (by decide) (by decide)
  rw [← immB_eq, toNat_joined h31 h7 h25 h8 (by decide)]
  simp (disch := decide) only [Word.field_eq, Nat.reduceSub, Nat.reduceAdd]
  unfold Rv32i.immB
  omega

theorem toNat_immJ (w : Word) : (immJ w).toNat = Rv32i.immJ w.toNat := by
  have h31 : (Word.bits w 31 31).toNat < 2 ^ 1 := Word.toNat_bits_lt w (by decide) (by decide)
  have h12 : (Word.bits w 12 19).toNat < 2 ^ 8 := Word.toNat_bits_lt w (by decide) (by decide)
  have h20 : (Word.bits w 20 20).toNat < 2 ^ 1 := Word.toNat_bits_lt w (by decide) (by decide)
  have h21 : (Word.bits w 21 30).toNat < 2 ^ 10 := Word.toNat_bits_lt w (by decide) (by decide)
  rw [← immJ_eq, toNat_joined h31 h12 h20 h21 (by decide)]
  simp (disch := decide) only [Word.field_eq, Nat.reduceSub, Nat.reduceAdd]
  unfold Rv32i.immJ
  omega

/-- The upper immediate at its place in a word. -/
theorem toNat_immU (w : Word) : (immU w <<< 12).toNat = Rv32i.immU w.toNat := by
  have h : (Word.bits w 12 31).toNat < 2 ^ 20 := Word.toNat_bits_lt w (by decide) (by decide)
  rw [immU, BitVec.toNat_shiftLeft, Nat.shiftLeft_eq, Nat.mod_eq_of_lt (by omega)]
  simp (disch := decide) only [Word.field_eq]
  rfl

end Fields

/-! ## Operations -/

namespace AluOp

theorem flag_eq (p : Prop) [Decidable p] : flag (decide p) = BitVec.ofInt 32 (truth p) := by
  unfold flag truth
  by_cases h : p <;> simp [h]

theorem ofInt_sub (a b : Word) : BitVec.ofInt 32 ((a.toNat : Int) - b.toNat) = a - b := by
  rw [Int.sub_eq_add_neg, BitVec.ofInt_add, BitVec.ofInt_neg, Word.ofInt_toNat, Word.ofInt_toNat,
    BitVec.sub_eq_add_neg]

theorem ofInt_add (a : Word) (z : Int) :
    BitVec.ofInt 32 ((a.toNat : Int) + z) = a + BitVec.ofInt 32 z := by
  rw [BitVec.ofInt_add, Word.ofInt_toNat]

/-- A number that is kept whole by a register. -/
theorem ofInt_of_toNat_eq {w : Word} {n : Nat} (h : w.toNat = n) : BitVec.ofInt 32 n = w := by
  rw [← h, Word.ofInt_toNat]

theorem ofInt_sll (a : Word) (n : Nat) : BitVec.ofInt 32 (a.toNat * 2 ^ n : Nat) = a <<< n := by
  rw [BitVec.ofInt_natCast]
  apply BitVec.eq_of_toNat_eq
  rw [BitVec.toNat_ofNat, BitVec.toNat_shiftLeft, Nat.shiftLeft_eq]

theorem ofInt_srl (a : Word) (n : Nat) : BitVec.ofInt 32 (a.toNat / 2 ^ n : Nat) = a >>> n :=
  ofInt_of_toNat_eq (by rw [BitVec.toNat_ushiftRight, Nat.shiftRight_eq_div_pow])

/-- Shifting the sign in is division, rounded down. -/
theorem ofInt_sra (a : Word) (n : Nat) :
    BitVec.ofInt 32 (a.toInt.fdiv (2 ^ n)) = a.sshiftRight n := by
  have hp : (0 : Int) ≤ 2 ^ n := Int.le_of_lt (Int.pow_pos (by decide))
  have h : (a.sshiftRight n).toInt = a.toInt / 2 ^ n := by
    rw [BitVec.toInt_sshiftRight, Int.shiftRight_eq_div_pow]
    norm_cast
  rw [Int.fdiv_eq_ediv_of_nonneg _ hp, ← h, BitVec.ofInt_toInt]

theorem ofInt_and (a b : Word) : BitVec.ofInt 32 (a.toNat &&& b.toNat : Nat) = a &&& b :=
  ofInt_of_toNat_eq (BitVec.toNat_and ..)

theorem ofInt_or (a b : Word) : BitVec.ofInt 32 (a.toNat ||| b.toNat : Nat) = a ||| b :=
  ofInt_of_toNat_eq (BitVec.toNat_or ..)

theorem ofInt_xor (a b : Word) : BitVec.ofInt 32 (a.toNat ^^^ b.toNat : Nat) = a ^^^ b :=
  ofInt_of_toNat_eq (BitVec.toNat_xor ..)

theorem slt_eq (a b : Word) : flag (a.slt b) = BitVec.ofInt 32 (truth (a.toInt < b.toInt)) := by
  rw [BitVec.slt_eq_decide, flag_eq]

theorem sltu_eq (a b : Word) : flag (a.ult b) = BitVec.ofInt 32 (truth (a.toNat < b.toNat)) := by
  rw [BitVec.ult_eq_decide, flag_eq]

/-- The operation on registers that function codes select. -/
theorem ofFunct?_eq (funct3 funct7 a b : Word) :
    (ofFunct? funct3 funct7).map (fun op => op.eval a b) =
      (registerOp? funct3.toNat funct7.toNat a.toNat b.toNat).map (BitVec.ofInt 32) := by
  unfold ofFunct?
  split
  case h_11 =>
    rw [registerOp?]
    · rfl
    all_goals
      intro h3 h7
      cases Word.eq_ofNat h3
      cases Word.eq_ofNat h7
      contradiction
  all_goals
    simp only [registerOp?, eval, amount, Option.map_some, BitVec.toNat_ofNat, Nat.reducePow,
      Nat.reduceMod, ofInt_add, ofInt_sub, ofInt_sll, ofInt_srl, ofInt_sra, ofInt_and, ofInt_or,
      ofInt_xor, Word.ofInt_toNat, Word.signed_toNat, slt_eq, sltu_eq]

/-- A shift by an immediate is the shift by a register, with the selector where the
other format has it. -/
theorem immediateOp?_shift {funct3 imm a b : Nat} (h : funct3 = 1 ∨ funct3 = 5)
    (hb : b % 32 = imm % 32) : immediateOp? funct3 imm a = registerOp? funct3 (imm / 32) a b := by
  rcases h with rfl | rfl
  all_goals
    simp only [immediateOp?, ← hb]
    generalize imm / 32 = q
    split
  case inl.isTrue h0 | inr.isTrue h0 =>
    rw [h0]
    rfl
  case inl.isFalse h0 => rw [registerOp?] <;> omega
  case inr.isFalse h0 =>
    split
    case isTrue h1 =>
      rw [h1]
      rfl
    case isFalse h1 => rw [registerOp?] <;> omega

/-- The low bits of an extended word are those of the word. -/
theorem amount_signExtend (w : Word) : amount (Word.signExtend w 12) = amount w := by
  have h : (Word.signExtend w 12).setWidth 5 = w.setWidth 5 := by
    apply BitVec.eq_of_getLsbD_eq
    intro i hi
    rw [BitVec.getLsbD_setWidth, BitVec.getLsbD_setWidth, Word.getLsbD_signExtend w (by omega),
      if_pos (by omega)]
  exact congrArg BitVec.toNat h

/-- The operation on an immediate that function codes select. -/
theorem ofImmediate?_eq (funct3 imm a : Word) :
    (ofImmediate? funct3 imm).map (fun op => op.eval a (Word.signExtend imm 12)) =
      (immediateOp? funct3.toNat imm.toNat a.toNat).map (BitVec.ofInt 32) := by
  have h12 : 1 ≤ 12 ∧ 12 ≤ 32 := by decide
  have hq : (imm >>> 5).toNat = imm.toNat / 32 := by
    rw [BitVec.toNat_ushiftRight, Nat.shiftRight_eq_div_pow]
  unfold ofImmediate?
  split
  case h_7 | h_8 =>
    rw [ofFunct?_eq, hq, immediateOp?_shift (by decide) (amount_signExtend imm)]
  case h_9 =>
    rw [immediateOp?]
    · rfl
    all_goals
      intro h3
      cases Word.eq_ofNat h3
      contradiction
  all_goals
    simp only [immediateOp?, eval, Option.map_some, BitVec.toNat_ofNat, Nat.reducePow,
      Nat.reduceMod, ofInt_add, ofInt_and, ofInt_or, ofInt_xor, Word.signed_toNat, slt_eq,
      sltu_eq, ← Word.toNat_signExtend imm h12, Word.toInt_signExtend imm h12,
      Word.ofInt_signed imm h12]

/-- The condition that function codes select. -/
theorem ofBranch?_eq (funct3 a b : Word) :
    (ofBranch? funct3).map (fun op => op.eval a b) =
      (condition? funct3.toNat a.toNat b.toNat).map flag := by
  unfold ofBranch?
  split
  case h_7 =>
    rw [condition?]
    · rfl
    all_goals
      intro h3
      cases Word.eq_ofNat h3
      contradiction
  all_goals
    simp only [condition?, eval, Option.map_some, BitVec.toNat_ofNat, Nat.reducePow,
      Nat.reduceMod, Word.signed_toNat, BitVec.slt_eq_decide, BitVec.ult_eq_decide,
      BitVec.toNat_inj, bne_eq, Bool.beq_eq_decide_eq, decide_not, ← Int.not_lt, ← Nat.not_lt,
      ne_eq]

end AluOp
end FiveStage
