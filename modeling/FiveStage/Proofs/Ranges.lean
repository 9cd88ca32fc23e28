import FiveStage.Fault
import FiveStage.Proofs.Numbers

/-
  Ranges — bit ranges and sign extension as arithmetic

  A range of bits is a quotient and a remainder, and ranges that follow one another
  make up the word again. A word extended from its low bits is the one word that agrees
  with it in those bits and lies in the signed range that they have. So of two
  extensions the narrower one decides.

  Shifts alone are enough for both. A shift is defined for the amounts 0 to 31 only, and
  here each amount is checked, a negative one too.

  What is proved:
    1. `eq_signExtend_iff`, `signExtend_signExtend` — extension is told by remainder and
       range, and extending twice is extending from the narrower width.
    2. `rangeByShifts_eq`, `extendByShifts_eq` — the two by shifts, whose amounts are
       refused just where a range runs past the word or a width has no sign bit.
    3. `rejoin_eq` — a word cut into consecutive ranges is put together again.
    4. `ranges_and_extensions` — all this of the checked operations.
-/

namespace FiveStage

open Rv32i

namespace Word

theorem bitRange_eq_ok (w : Word) {lo hi : Nat} (h : lo ≤ hi ∧ hi < 32) :
    w.bitRange lo hi = .ok (bits w lo hi) := if_pos h

theorem signExtendFrom_eq_ok (w : Word) {b : Nat} (h : 1 ≤ b ∧ b ≤ 32) :
    w.signExtendFrom b = .ok (signExtend w b) := if_pos h

/-! ## Extension -/

theorem signed_bounds {b : Nat} (h : 1 ≤ b) (n : Nat) :
    -2 ^ (b - 1) ≤ signed b n ∧ signed b n < 2 ^ (b - 1) := by
  have hp : (2 : Nat) ^ b = 2 * 2 ^ (b - 1) := by
    rw [← Nat.pow_succ']
    congr 1
    omega
  have hpos : 0 < 2 ^ b := Nat.two_pow_pos b
  have hlo : -(((2 ^ b : Nat) : Int) / 2) ≤ signed b n := Int.le_bmod hpos
  have hhi : signed b n < (((2 ^ b : Nat) : Int) + 1) / 2 := Int.bmod_lt hpos
  have hcast : ((2 ^ (b - 1) : Nat) : Int) = 2 ^ (b - 1) := by norm_cast
  omega

theorem toNat_signExtend_mod (w : Word) {b : Nat} (h : b ≤ 32) :
    (signExtend w b).toNat % 2 ^ b = w.toNat % 2 ^ b := by
  have hlow : (signExtend w b).setWidth b = w.setWidth b := by
    apply BitVec.eq_of_getLsbD_eq
    intro i hi
    rw [BitVec.getLsbD_setWidth, BitVec.getLsbD_setWidth,
      getLsbD_signExtend w (Nat.lt_of_lt_of_le hi h), if_pos hi]
  have := congrArg BitVec.toNat hlow
  rwa [BitVec.toNat_setWidth, BitVec.toNat_setWidth] at this

/-- A word in the signed range of its low bits is what these say. -/
theorem toInt_eq_signed (x : Word) {b : Nat} (h : 1 ≤ b ∧ b ≤ 32)
    (hlo : -2 ^ (b - 1) ≤ x.toInt) (hhi : x.toInt < 2 ^ (b - 1)) :
    x.toInt = signed b x.toNat := by
  have hp : (2 : Nat) ^ b = 2 * 2 ^ (b - 1) := by
    rw [← Nat.pow_succ']
    congr 1
    omega
  have hcast : ((2 ^ (b - 1) : Nat) : Int) = 2 ^ (b - 1) := by norm_cast
  have hin : x.toInt.bmod (2 ^ b) = x.toInt := Int.bmod_eq_of_le_mul_two (by omega) (by omega)
  calc x.toInt = x.toInt.bmod (2 ^ b) := hin.symm
    _ = ((x.toNat : Int).bmod (2 ^ 32)).bmod (2 ^ b) := by rw [BitVec.toInt_eq_toNat_bmod]
    _ = (x.toNat : Int).bmod (2 ^ b) := Int.bmod_bmod_of_dvd (Nat.pow_dvd_pow 2 h.2)

theorem signed_mod (b n : Nat) : signed b (n % 2 ^ b) = signed b n := by
  rw [signed, Int.natCast_emod, Int.emod_bmod]
  rfl

/-- The extended word is the one word with the same low bits that lies in the signed
range of so many bits. -/
theorem eq_signExtend_iff {w x : Word} {b : Nat} (h : 1 ≤ b ∧ b ≤ 32) :
    x = signExtend w b ↔
      x.toNat % 2 ^ b = w.toNat % 2 ^ b ∧ -2 ^ (b - 1) ≤ x.toInt ∧ x.toInt < 2 ^ (b - 1) := by
  constructor
  · rintro rfl
    refine ⟨toNat_signExtend_mod w h.2, ?_⟩
    rw [toInt_signExtend w h]
    exact signed_bounds h.1 w.toNat
  · rintro ⟨hmod, hlo, hhi⟩
    apply BitVec.eq_of_toInt_eq
    calc x.toInt = signed b x.toNat := toInt_eq_signed x h hlo hhi
      _ = signed b (x.toNat % 2 ^ b) := (signed_mod b _).symm
      _ = signed b (w.toNat % 2 ^ b) := by rw [hmod]
      _ = signed b w.toNat := signed_mod b _
      _ = (signExtend w b).toInt := (toInt_signExtend w h).symm

/-- Of two extensions the narrower one decides. -/
theorem signExtend_signExtend (w : Word) {a b : Nat} (ha : 1 ≤ a ∧ a ≤ 32)
    (hb : 1 ≤ b ∧ b ≤ 32) : signExtend (signExtend w a) b = signExtend w (min a b) := by
  rcases Nat.le_total a b with h | h
  · -- the inner word is in the wider range already
    rw [Nat.min_eq_left h]
    obtain ⟨-, hlo, hhi⟩ := (eq_signExtend_iff ha).mp (rfl : signExtend w a = signExtend w a)
    have hp : (2 : Int) ^ (a - 1) ≤ 2 ^ (b - 1) := by
      exact_mod_cast Nat.pow_le_pow_right (by decide) (Nat.sub_le_sub_right h 1)
    exact ((eq_signExtend_iff hb).mpr ⟨rfl, by omega, by omega⟩).symm
  · -- the outer width sees bits only that the inner extension keeps
    rw [Nat.min_eq_right h]
    obtain ⟨hmod, hlo, hhi⟩ := (eq_signExtend_iff (w := signExtend w a) hb).mp rfl
    refine (eq_signExtend_iff hb).mpr ⟨hmod.trans ?_, hlo, hhi⟩
    have hdvd : 2 ^ b ∣ 2 ^ a := Nat.pow_dvd_pow 2 h
    calc (signExtend w a).toNat % 2 ^ b = (signExtend w a).toNat % 2 ^ a % 2 ^ b :=
          (Nat.mod_mod_of_dvd _ hdvd).symm
      _ = w.toNat % 2 ^ a % 2 ^ b := by rw [toNat_signExtend_mod w ha.2]
      _ = w.toNat % 2 ^ b := Nat.mod_mod_of_dvd _ hdvd

/-! ## Shifts -/

/-- A shift by 0 to 31 places; no other is defined. -/
def shift? (move : Word → Nat → Word) (w : Word) (amount : Int) : Option Word :=
  if 0 ≤ amount ∧ amount < 32 then some (move w amount.toNat) else none

theorem shift?_of_lt (move : Word → Nat → Word) (w : Word) {amount : Int} {n : Nat}
    (h : amount = n) (hn : n < 32) : shift? move w amount = some (move w n) := by
  rw [shift?, if_pos (by omega), h, Int.toNat_natCast]

/-- A range of bits: shifted down to bit 0, and cut off by a mask that is shifted to its
width. -/
def rangeByShifts (w : Word) (lo hi : Nat) : Option Word :=
  if lo ≤ hi ∧ hi < 32 then do
    let mask ← shift? BitVec.ushiftRight (BitVec.allOnes 32) (31 - ((hi : Int) - lo))
    let low ← shift? BitVec.ushiftRight w lo
    return low &&& mask
  else none

/-- Extension: the sign bit is shifted up to bit 31, and back with its copies. -/
def extendByShifts (w : Word) (width : Nat) : Option Word :=
  if 1 ≤ width ∧ width ≤ 32 then do
    let up ← shift? BitVec.shiftLeft w (32 - (width : Int))
    shift? BitVec.sshiftRight up (32 - (width : Int))
  else none

theorem rangeByShifts_eq (w : Word) (lo hi : Nat) :
    rangeByShifts w lo hi = (w.bitRange lo hi).toOption := by
  unfold rangeByShifts bitRange
  by_cases h : lo ≤ hi ∧ hi < 32
  · have hmask : shift? BitVec.ushiftRight (BitVec.allOnes 32) (31 - ((hi : Int) - lo)) =
        some (lowMask (hi - lo + 1)) :=
      shift?_of_lt _ _ (n := 32 - (hi - lo + 1)) (by omega) (by omega)
    have hlow : shift? BitVec.ushiftRight w lo = some (w >>> lo) :=
      shift?_of_lt _ _ rfl (by omega)
    rw [if_pos h, if_pos h, hmask, hlow]
    rfl
  · rw [if_neg h, if_neg h]
    rfl

/-- Up and back down, each bit from the sign bit on is the sign bit. -/
theorem sshiftRight_shiftLeft (w : Word) {b : Nat} (h : 1 ≤ b ∧ b ≤ 32) :
    (w <<< (32 - b)).sshiftRight (32 - b) = signExtend w b := by
  apply BitVec.eq_of_getLsbD_eq
  intro i hi
  rw [getLsbD_signExtend w hi, BitVec.getLsbD_sshiftRight, BitVec.msb_eq_getLsbD_last,
    BitVec.getLsbD_shiftLeft, BitVec.getLsbD_shiftLeft, decide_eq_false (show ¬32 ≤ i by omega)]
  by_cases hib : i < b
  · have hlt : 32 - b + i < 32 := by omega
    have hge : ¬32 - b + i < 32 - b := by omega
    rw [if_pos hlt, if_pos hib, decide_eq_true hlt, decide_eq_false hge, Nat.add_sub_cancel_left]
    rfl
  · have hge : ¬32 - b + i < 32 := by omega
    have htop : ¬32 - 1 < 32 - b := by omega
    rw [if_neg hge, if_neg hib, decide_eq_false htop, show 32 - 1 - (32 - b) = b - 1 by omega]
    rfl

theorem extendByShifts_eq (w : Word) (b : Nat) :
    extendByShifts w b = (w.signExtendFrom b).toOption := by
  unfold extendByShifts signExtendFrom
  by_cases h : 1 ≤ b ∧ b ≤ 32
  · have hup : shift? BitVec.shiftLeft w (32 - (b : Int)) = some (w <<< (32 - b)) :=
      shift?_of_lt _ _ (by omega) (by omega)
    have hback : shift? BitVec.sshiftRight (w <<< (32 - b)) (32 - (b : Int)) =
        some (signExtend w b) := by
      rw [← sshiftRight_shiftLeft w h]
      exact shift?_of_lt _ _ (by omega) (by omega)
    rw [if_pos h, if_pos h, hup, Option.bind_eq_bind, Option.bind_some, hback]
    rfl
  · rw [if_neg h, if_neg h]
    rfl

/-! ## Cuts -/

/-- Ranges that follow one another from bit `lo` on and end right before bit `top`. -/
def Cuts (top : Nat) : (lo : Nat) → List (Nat × Nat) → Prop
  | lo, [] => lo = top
  | lo, (first, last) :: rest => first = lo ∧ first ≤ last ∧ Cuts top (last + 1) rest

instance decidableCuts (top : Nat) : (lo : Nat) → (ranges : List (Nat × Nat)) →
    Decidable (Cuts top lo ranges)
  | lo, [] => inferInstanceAs (Decidable (lo = top))
  | lo, (first, last) :: rest =>
    have := decidableCuts top (last + 1) rest
    inferInstanceAs (Decidable (first = lo ∧ first ≤ last ∧ Cuts top (last + 1) rest))

/-- The ranges of a word, each shifted back to its place, as one word. -/
def rejoin (w : Word) : List (Nat × Nat) → Option Word
  | [] => some 0
  | (lo, hi) :: rest => do
    let field ← (w.bitRange lo hi).toOption
    let placed ← shift? BitVec.shiftLeft field lo
    let others ← rejoin w rest
    return placed ||| others

theorem Cuts.le {top lo : Nat} {ranges : List (Nat × Nat)} (h : Cuts top lo ranges) :
    lo ≤ top := by
  induction ranges generalizing lo with
  | nil => exact Nat.le_of_eq h
  | cons r rest ih =>
    obtain ⟨rfl, hle, hrest⟩ := h
    have := ih hrest
    omega

/-- A range in its place, and all bits above it. -/
theorem bits_or_above (w : Word) {lo hi : Nat} (h : lo ≤ hi) (hh : hi < 32) :
    bits w lo hi <<< lo ||| w >>> (hi + 1) <<< (hi + 1) = w >>> lo <<< lo := by
  apply BitVec.eq_of_getLsbD_eq
  intro i hi32
  simp only [bits, BitVec.getLsbD_or, BitVec.getLsbD_shiftLeft, BitVec.getLsbD_and,
    BitVec.getLsbD_ushiftRight, hi32, decide_true, Bool.true_and]
  by_cases hlo : i < lo
  · have hup : i < hi + 1 := by omega
    simp [hlo, hup]
  · rw [getLsbD_lowMask (by omega), show lo + (i - lo) = i by omega]
    by_cases hup : i < hi + 1
    · have hin : i - lo < hi - lo + 1 := by omega
      simp [hlo, hup, hin]
    · have hin : ¬i - lo < hi - lo + 1 := by omega
      rw [show hi + 1 + (i - (hi + 1)) = i by omega]
      simp [hlo, hup, hin]

/-- Put together, consecutive ranges are the word without the bits below them. -/
theorem rejoin_eq (w : Word) {lo : Nat} {ranges : List (Nat × Nat)} (h : Cuts 32 lo ranges) :
    rejoin w ranges = some (w >>> lo <<< lo) := by
  induction ranges generalizing lo with
  | nil =>
    obtain rfl : lo = 32 := h
    rw [BitVec.ushiftRight_eq_zero (Nat.le_refl 32), BitVec.zero_shiftLeft]
    rfl
  | cons r rest ih =>
    obtain ⟨first, last⟩ := r
    obtain ⟨rfl, hle, hrest⟩ := h
    have hlast : last < 32 := hrest.le
    have hfield : w.bitRange first last = .ok (bits w first last) := bitRange_eq_ok w ⟨hle, hlast⟩
    have hplaced : shift? BitVec.shiftLeft (bits w first last) first =
        some (bits w first last <<< first) := shift?_of_lt _ _ rfl (by omega)
    rw [rejoin, hfield]
    simp only [Except.toOption, Option.bind_eq_bind, Option.bind_some, hplaced, ih hrest]
    rw [← bits_or_above w hle hlast]
    rfl

/-! ## The checked operations -/

/-- **Ranges and extensions are arithmetic.** A width of 1 to 32 is never refused: the
word extended from it is the only word with the same remainder that lies in the signed
range, and a second extension acts as one from the narrower width. Nor is a range that
ends within the word: it is the quotient and remainder, and however the word is cut into
consecutive ranges, these put it together again. No shift that is made on the way is by
less than 0 or more than 31 places. -/
theorem ranges_and_extensions (w : Word) :
    (∀ b, 1 ≤ b → b ≤ 32 →
      ∃ x, w.signExtendFrom b = .ok x ∧ extendByShifts w b = some x ∧
        ∀ y : Word, y = x ↔
          y.toNat % 2 ^ b = w.toNat % 2 ^ b ∧ -2 ^ (b - 1) ≤ y.toInt ∧ y.toInt < 2 ^ (b - 1)) ∧
    (∀ a b, 1 ≤ a → a ≤ 32 → 1 ≤ b → b ≤ 32 →
      ∃ x y, w.signExtendFrom a = .ok x ∧ x.signExtendFrom b = .ok y ∧
        w.signExtendFrom (min a b) = .ok y) ∧
    (∀ lo hi, lo ≤ hi → hi ≤ 31 →
      ∃ x, w.bitRange lo hi = .ok x ∧ rangeByShifts w lo hi = some x ∧
        x.toNat = w.toNat / 2 ^ lo % 2 ^ (hi - lo + 1)) ∧
    ∀ ranges, Cuts 32 0 ranges → rejoin w ranges = some w := by
  refine ⟨fun b h1 h32 => ?_, fun a b ha1 ha32 hb1 hb32 => ?_, fun lo hi hle hhi => ?_,
    fun ranges h => ?_⟩
  · refine ⟨_, signExtendFrom_eq_ok w ⟨h1, h32⟩, ?_, fun y => eq_signExtend_iff ⟨h1, h32⟩⟩
    rw [extendByShifts_eq, signExtendFrom_eq_ok w ⟨h1, h32⟩]
    rfl
  · refine ⟨_, _, signExtendFrom_eq_ok w ⟨ha1, ha32⟩, signExtendFrom_eq_ok _ ⟨hb1, hb32⟩, ?_⟩
    rw [signExtend_signExtend w ⟨ha1, ha32⟩ ⟨hb1, hb32⟩]
    exact signExtendFrom_eq_ok w ⟨by omega, by omega⟩
  · have hlt : hi < 32 := by omega
    have hrange : w.bitRange lo hi = .ok (bits w lo hi) := bitRange_eq_ok w ⟨hle, hlt⟩
    refine ⟨_, hrange, ?_, toNat_bits w hle hlt⟩
    rw [rangeByShifts_eq, hrange]
    rfl
  · rw [rejoin_eq w h, BitVec.ushiftRight_zero, BitVec.shiftLeft_zero]

/-- A negative immediate is cut out of its word and extended, first from twelve bits and
then from twenty; the word itself is cut at the fields of its format. -/
theorem ranges_and_extensions_of_addi :
    (∃ x, Word.bitRange 0xff310093 20 31 = .ok x ∧ x.toNat = 0xff310093 / 2 ^ 20 % 2 ^ 12) ∧
    (∃ x y, Word.signExtendFrom 0xff3 12 = .ok x ∧ x.signExtendFrom 20 = .ok y ∧
      Word.signExtendFrom 0xff3 12 = .ok y) ∧
    (∃ x, Word.signExtendFrom 0xff3 12 = .ok x ∧ 0xfffffff3 = x) ∧
    rejoin 0xff310093 [(0, 6), (7, 11), (12, 14), (15, 19), (20, 31)] = some 0xff310093 := by
  obtain ⟨-, -, hrange, hcuts⟩ := ranges_and_extensions 0xff310093
  obtain ⟨hone, htwo, -, -⟩ := ranges_and_extensions 0xff3
  obtain ⟨x, hx, -, hnat⟩ := hrange 20 31 (by decide) (by decide)
  obtain ⟨y, hy, -, huniq⟩ := hone 12 (by decide) (by decide)
  exact ⟨⟨x, hx, hnat⟩, htwo 12 20 (by decide) (by decide) (by decide) (by decide),
    ⟨y, hy, (huniq _).mpr (by decide)⟩, hcuts _ (by decide)⟩

end Word

end FiveStage
