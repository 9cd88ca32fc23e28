import FiveStage.Fault

/-
  The register file — thirty-two words, of which x0 is always zero

  The rule for x0 is part of the type: a write to it is dropped, so no
  register file exists in which it holds anything else. `get` and `set` take a
  five-bit register name and cannot fail; `read` and `write` take any word and
  refuse one that names no register.
-/

namespace FiveStage

/-- The name of a register, as an instruction encodes it. -/
abbrev RegName := BitVec 5

structure Registers where
  cells : Vector Word 32
  zero_cell : cells[0] = 0
  deriving DecidableEq

namespace Registers

/-- All zero. -/
def zeroed : Registers := ⟨Vector.replicate 32 0, by simp⟩

def get (x : Registers) (r : RegName) : Word :=
  x.cells[r.toNat]

/-- A write to x0 is dropped. -/
def set (x : Registers) (r : RegName) (v : Word) : Registers :=
  if h : r = 0 then x
  else
    { cells := x.cells.set r.toNat v
      zero_cell := by
        have hr : r.toNat ≠ 0 := fun h0 => h (BitVec.eq_of_toNat_eq (by simpa using h0))
        rw [Vector.getElem_set_ne _ _ hr]
        exact x.zero_cell }

/-- The contents of x0 to x31. -/
def toList (x : Registers) : List Word := x.cells.toList

/-- The register that a word names. -/
def nameOf (index : Word) : Except Fault RegName :=
  if index.toNat < 32 then .ok (index.setWidth 5) else .error (.register index)

def read (x : Registers) (index : Word) : Except Fault Word :=
  (nameOf index).map x.get

/-- Refused where the word names no register, dropped where it names x0. -/
def write (x : Registers) (index v : Word) : Except Fault Registers :=
  (nameOf index).map (fun r => x.set r v)

/-! ## The contents after a write -/

@[simp] theorem get_zero (x : Registers) : x.get 0 = 0 := x.zero_cell

theorem get_zeroed (r : RegName) : zeroed.get r = 0 := by
  simp [get, zeroed]

theorem set_zero (x : Registers) (v : Word) : x.set 0 v = x := by
  simp [set]

theorem get_set_self (x : Registers) {r : RegName} (h : r ≠ 0) (v : Word) :
    (x.set r v).get r = v := by
  simp only [get, set, dif_neg h, Vector.getElem_set_self]

theorem get_set_of_ne (x : Registers) {r s : RegName} (h : r ≠ s) (v : Word) :
    (x.set r v).get s = x.get s := by
  have hn : r.toNat ≠ s.toNat := fun hn => h (BitVec.eq_of_toNat_eq hn)
  unfold set
  split
  · rfl
  · simp [get, Vector.getElem_set_ne _ _ hn]

/-- Two register files with equal contents are equal. -/
theorem ext_get {x y : Registers} (h : ∀ r, x.get r = y.get r) : x = y := by
  cases x with
  | mk cx hx =>
    cases y with
    | mk cy hy =>
      have hc : cx = cy := by
        apply Vector.ext
        intro i hi
        have hr := h (BitVec.ofNat 5 i)
        simpa [get, Nat.mod_eq_of_lt hi] using hr
      subst hc
      rfl

/-! ## Names -/

/-- The names that calling conventions give x0 to x31. -/
def abiNames : List String :=
  ["zero", "ra", "sp", "gp", "tp", "t0", "t1", "t2", "s0", "s1", "a0", "a1",
   "a2", "a3", "a4", "a5", "a6", "a7", "s2", "s3", "s4", "s5", "s6", "s7",
   "s8", "s9", "s10", "s11", "t3", "t4", "t5", "t6"]

end Registers

end FiveStage
