import Mathlib.Algebra.Group.Nat.Defs
import FiveStage.Encoding

/-
  Bit ranges — a range of bits as a number, and moved up

  `toNat_bits` reads a bit range as division and remainder. From it come the
  bounds of the register fields: each names one of 32 registers, in every format
  that carries it. `bits_shiftLeft` moves a range to its place in an immediate that
  is put together from several, as `immS_eq`, `immB_eq` and `immJ_eq` say of each.
-/

namespace FiveStage

namespace Word

theorem toNat_lowMask {width : Nat} (h : width ≤ 32) : (lowMask width).toNat = 2 ^ width - 1 := by
  have hp : (2 : Nat) ^ 32 = 2 ^ width * 2 ^ (32 - width) := by
    rw [← Nat.pow_add]
    congr 1
    omega
  have hpos : 0 < 2 ^ (32 - width) := Nat.two_pow_pos _
  have hw : 0 < 2 ^ width := Nat.two_pow_pos _
  rw [lowMask, BitVec.toNat_ushiftRight, BitVec.toNat_allOnes, Nat.shiftRight_eq_div_pow, hp]
  apply Nat.div_eq_of_lt_le
  · rw [Nat.sub_mul]
    omega
  · rw [Nat.sub_add_cancel hw]
    have := Nat.mul_pos hw hpos
    omega

theorem toNat_bits (w : Word) {lo hi : Nat} (h : lo ≤ hi) (hh : hi < 32) :
    (bits w lo hi).toNat = w.toNat / 2 ^ lo % 2 ^ (hi - lo + 1) := by
  rw [bits, BitVec.toNat_and, toNat_lowMask (by omega), BitVec.toNat_ushiftRight,
    Nat.shiftRight_eq_div_pow, Nat.and_two_pow_sub_one_eq_mod]

theorem toNat_bits_lt (w : Word) {lo hi : Nat} (h : lo ≤ hi) (hh : hi < 32) :
    (bits w lo hi).toNat < 2 ^ (hi - lo + 1) := by
  rw [toNat_bits w h hh]
  exact Nat.mod_lt _ (Nat.two_pow_pos _)

/-- A range of bits moved up is cut out of the word moved as far. -/
theorem bits_shiftLeft (w : Word) {lo hi n : Nat} (h : n ≤ lo) :
    bits w lo hi <<< n = w >>> (lo - n) &&& lowMask (hi - lo + 1) <<< n := by
  rw [bits, BitVec.shiftLeft_and_distrib]
  apply BitVec.eq_of_getLsbD_eq
  intro i hi
  simp only [BitVec.getLsbD_and, BitVec.getLsbD_shiftLeft, BitVec.getLsbD_ushiftRight]
  by_cases hin : i < n
  · simp [hin]
  · rw [show lo + (i - n) = lo - n + i by omega]
    simp [hi, hin]

/-- A range of bits moved up beyond where it was in the word. -/
theorem bits_shiftLeft_of_le (w : Word) {lo hi n : Nat} (h : lo ≤ n) :
    bits w lo hi <<< n = w <<< (n - lo) &&& lowMask (hi - lo + 1) <<< n := by
  rw [bits, BitVec.shiftLeft_and_distrib]
  apply BitVec.eq_of_getLsbD_eq
  intro i hi
  simp only [BitVec.getLsbD_and, BitVec.getLsbD_shiftLeft, BitVec.getLsbD_ushiftRight]
  by_cases hin : i < n
  · simp [hin]
  · rw [show lo + (i - n) = i - (n - lo) by omega]
    have : ¬i < n - lo := by omega
    simp [hi, hin, this]

end Word

namespace Fields

/-! ## Register fields name registers -/

theorem rdOf_lt (w : Word) : (rdOf w).toNat < 32 := Word.toNat_bits_lt w (by omega) (by omega)

theorem rs1Of_lt (w : Word) : (rs1Of w).toNat < 32 := Word.toNat_bits_lt w (by omega) (by omega)

theorem rs2Of_lt (w : Word) : (rs2Of w).toNat < 32 := Word.toNat_bits_lt w (by omega) (by omega)

theorem rs1_lt {f : Format} {w r : Word} (h : (ofWord f w).rs1 = some r) : r.toNat < 32 := by
  cases f with
  | u | j => simp [ofWord] at h
  | r | i | s | b =>
    simp only [ofWord, Option.some.injEq] at h
    exact h ▸ rs1Of_lt w

theorem rs2_lt {f : Format} {w r : Word} (h : (ofWord f w).rs2 = some r) : r.toNat < 32 := by
  cases f with
  | i | u | j => simp [ofWord] at h
  | r | s | b =>
    simp only [ofWord, Option.some.injEq] at h
    exact h ▸ rs2Of_lt w

theorem rd_lt {f : Format} {w r : Word} (h : (ofWord f w).rd = some r) : r.toNat < 32 := by
  cases f with
  | s | b => simp [ofWord] at h
  | r | i | u | j =>
    simp only [ofWord, Option.some.injEq] at h
    exact h ▸ rdOf_lt w

/-! ## Split immediates are put together from ranges -/

theorem immS_eq (w : Word) : Word.bits w 25 31 <<< 5 ||| Word.bits w 7 11 = immS w := by
  rw [Word.bits_shiftLeft w (by decide)]
  rfl

theorem immB_eq (w : Word) :
    (Word.bits w 31 31 <<< 11 ||| Word.bits w 7 7 <<< 10 ||| Word.bits w 25 30 <<< 4 |||
      Word.bits w 8 11) <<< 1 = immB w := by
  simp only [BitVec.shiftLeft_or_distrib, ← BitVec.shiftLeft_add]
  rw [Word.bits_shiftLeft w (by decide), Word.bits_shiftLeft_of_le w (by decide),
    Word.bits_shiftLeft w (by decide), Word.bits_shiftLeft w (by decide)]
  rfl

theorem immJ_eq (w : Word) :
    (Word.bits w 31 31 <<< 19 ||| Word.bits w 12 19 <<< 11 ||| Word.bits w 20 20 <<< 10 |||
      Word.bits w 21 30) <<< 1 = immJ w := by
  simp only [BitVec.shiftLeft_or_distrib, ← BitVec.shiftLeft_add]
  rw [Word.bits_shiftLeft w (by decide), Word.bits_shiftLeft w (by decide),
    Word.bits_shiftLeft w (by decide), Word.bits_shiftLeft w (by decide)]
  simp only [Nat.reduceAdd, Nat.sub_self, BitVec.ushiftRight_zero]
  rfl

end Fields

end FiveStage
