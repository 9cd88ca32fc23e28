import FiveStage.Fault
import Std.Data.ExtTreeMap

/-
  Memory — a bounded map from word numbers to words

  A memory has a capacity in words; cell `i` holds the word at byte addresses
  `4 i` to `4 i + 3`, so the low two bits of an address never matter. Only
  cells that hold something other than zero are stored, which makes the
  representation canonical: two memories of one capacity with equal cells are
  equal (`ext_cell`), and an empty memory costs nothing, however large.

  A machine is given its memory by `allocate`, which has a limit; the cells and
  their laws do not depend on it.

  `cell_set` says what a write does to the cells; everything else about reads
  and writes follows from it.
-/

namespace FiveStage

/-- The number of the memory cell that an address lies in. -/
def Word.cellOf (address : Word) : Nat := (address >>> 2).toNat

structure Memory where
  /-- How many words there are. -/
  capacity : Nat
  /-- The cells that are not zero. -/
  stored : Std.ExtTreeMap Nat Word
  stored_ne_zero : ∀ i : Nat, stored[i]? ≠ some 0
  stored_lt : ∀ i : Nat, capacity ≤ i → stored[i]? = none

namespace Memory

/-- All zero. -/
def zeroed (capacity : Nat) : Memory :=
  { capacity, stored := ∅, stored_ne_zero := by simp, stored_lt := by simp }

/-- No memory spans this many bytes: a distance inside one fits a signed 64-bit
number. -/
def spanLimit : Nat := 9223372036854775808

/-- A memory that is all zero, if there can be one so large. -/
def allocate (capacity : Nat) : Except Fault Memory :=
  if 4 * capacity < spanLimit then .ok (zeroed capacity) else .error .capacity

/-- The word in cell `i`; beyond the capacity there is nothing but zeros. -/
def cell (m : Memory) (i : Nat) : Word := m.stored[i]?.getD 0

def set (m : Memory) (i : Nat) (v : Word) (h : i < m.capacity) : Memory :=
  { capacity := m.capacity
    stored := if v = 0 then m.stored.erase i else m.stored.insert i v
    stored_ne_zero := by
      intro j
      split
      · rw [Std.ExtTreeMap.getElem?_erase]
        split
        · simp
        · exact m.stored_ne_zero j
      · rename_i hv
        rw [Std.ExtTreeMap.getElem?_insert]
        split
        · simpa using hv
        · exact m.stored_ne_zero j
    stored_lt := by
      intro j hj
      have hij : compare i j ≠ .eq := by
        intro he
        have := Nat.compare_eq_eq.mp he
        omega
      split
      · rw [Std.ExtTreeMap.getElem?_erase, if_neg hij]
        exact m.stored_lt j hj
      · rw [Std.ExtTreeMap.getElem?_insert, if_neg hij]
        exact m.stored_lt j hj }

def read (m : Memory) (address : Word) : Except OutOfBounds Word :=
  if address.cellOf < m.capacity then .ok (m.cell address.cellOf) else .error ⟨address⟩

def write (m : Memory) (address v : Word) : Except OutOfBounds Memory :=
  if h : address.cellOf < m.capacity then .ok (m.set address.cellOf v h)
  else .error ⟨address⟩

/-- A read by the machine: an address outside memory is a fault. -/
def load (m : Memory) (address : Word) : Except Fault Word :=
  (m.read address).mapError Fault.load

def store (m : Memory) (address v : Word) : Except Fault Memory :=
  (m.write address v).mapError Fault.store

/-- Replaces one byte: its lane of the word that contains it. -/
def writeByte (m : Memory) (address : Word) (b : Byte) : Except OutOfBounds Memory := do
  let w ← m.read address
  m.write address (Word.setByte w (address.toNat % 4) b)

def size (m : Memory) : Nat := 4 * m.capacity

/-- Byte address and word of every cell that is not zero, in address order. -/
def listing (m : Memory) : List (Nat × Word) :=
  m.stored.toList.map (fun (i, w) => (4 * i, w))

/-! ## Allocation -/

theorem allocate_eq_ok_iff {capacity : Nat} {m : Memory} :
    allocate capacity = .ok m ↔ 4 * capacity < spanLimit ∧ m = zeroed capacity := by
  unfold allocate
  split
  · rename_i h
    exact ⟨fun e => ⟨h, (Except.ok.inj e).symm⟩, fun e => congrArg _ e.2.symm⟩
  · rename_i h
    exact ⟨nofun, fun e => absurd e.1 h⟩

/-! ## The cells after a write -/

@[simp] theorem cell_zeroed (capacity i : Nat) : (zeroed capacity).cell i = 0 := by
  simp [cell, zeroed]

theorem cell_eq_zero (m : Memory) {i : Nat} (h : m.capacity ≤ i) : m.cell i = 0 := by
  simp [cell, m.stored_lt i h]

@[simp] theorem capacity_set (m : Memory) (i : Nat) (v : Word) (h : i < m.capacity) :
    (m.set i v h).capacity = m.capacity := rfl

theorem cell_set (m : Memory) (i j : Nat) (v : Word) (h : i < m.capacity) :
    (m.set i v h).cell j = if i = j then v else m.cell j := by
  by_cases hv : v = 0
  · by_cases hij : i = j
    · subst hij
      simp only [cell, set, if_pos hv, Std.ExtTreeMap.getElem?_erase_self, Option.getD_none, if_true]
      exact hv.symm
    · have hc : compare i j ≠ .eq := fun he => hij (Nat.compare_eq_eq.mp he)
      simp only [cell, set, if_pos hv, Std.ExtTreeMap.getElem?_erase, if_neg hc, if_neg hij]
  · by_cases hij : i = j
    · subst hij
      simp only [cell, set, if_neg hv, Std.ExtTreeMap.getElem?_insert_self, Option.getD_some, if_true]
    · have hc : compare i j ≠ .eq := fun he => hij (Nat.compare_eq_eq.mp he)
      simp only [cell, set, if_neg hv, Std.ExtTreeMap.getElem?_insert, if_neg hc, if_neg hij]

theorem stored_eq_some_iff (m : Memory) (i : Nat) (v : Word) :
    m.stored[i]? = some v ↔ m.cell i = v ∧ v ≠ 0 := by
  unfold cell
  cases hs : m.stored[i]? with
  | none => exact ⟨nofun, fun h => absurd h.1.symm h.2⟩
  | some w =>
    have hw : w ≠ 0 := fun h0 => m.stored_ne_zero i (by rw [hs, h0])
    simp only [Option.some.injEq, Option.getD_some]
    exact ⟨fun h => ⟨h, h ▸ hw⟩, fun h => h.1⟩

/-- Two memories of one capacity with equal cells are equal. -/
theorem ext_cell {m n : Memory} (hc : m.capacity = n.capacity)
    (h : ∀ i, m.cell i = n.cell i) : m = n := by
  have hs : m.stored = n.stored := by
    apply Std.ExtTreeMap.ext_getElem?
    intro i
    cases hm : m.stored[i]? with
    | none =>
      cases hn : n.stored[i]? with
      | none => rfl
      | some w =>
        have hw := (n.stored_eq_some_iff i w).mp hn
        have h0 : m.cell i = 0 := by simp [cell, hm]
        exact absurd (hw.1.symm.trans ((h i).symm.trans h0)) hw.2
    | some w =>
      have hw := (m.stored_eq_some_iff i w).mp hm
      exact ((n.stored_eq_some_iff i w).mpr ⟨(h i).symm.trans hw.1, hw.2⟩).symm
  cases m
  cases n
  simp only at hc hs
  subst hc hs
  rfl

end Memory

end FiveStage
