import FiveStage.Proofs.Course

/-
  The schedule — at the end of which cycle the pipeline holds which instruction

  The schedule is read off the course of a program alone. `entersAt s k` is the
  cycle at whose end instruction `k` is in the first slot, about to be decoded for
  good; from there it moves one slot a cycle. One instruction follows another
  after one cycle, after five if it is a branch or jump, and after two if the
  other waits for a load.

  `begun s n` counts the instructions that have entered by the end of cycle `n`,
  and `entering s n` is the one that enters in it. What is proved:
    1. `lt_begun_iff` — an instruction has entered exactly when its time has come.
    2. `entering_eq_some_iff` — at most one enters in a cycle, at its time.
    3. `begun_cases` — the count goes up by the one that enters.
-/

namespace FiveStage

namespace Sequential

variable (s : State)

/-- Whether instruction `k` waits for the load right ahead of it. -/
def waits : Nat → Bool
  | 0 => false
  | k + 1 => InFlight.loadUse (stateAt s k).word (stateAt s (k + 1)).word

/-- The cycle at whose end instruction `k` is in the first slot for the last time. -/
def entersAt : Nat → Nat
  | 0 => 1
  | k + 1 =>
    entersAt k + 1 + (if InFlight.isTransfer (stateAt s k).word then 4 else 0)
      + (if waits s (k + 1) then 1 else 0)

/-- How many instructions have entered by the end of cycle `n`. -/
def begun : Nat → Nat
  | 0 => 0
  | n + 1 =>
    if entersAt s (begun n) = n + 1 ∧ (stateAt s (begun n)).word ≠ 0 then begun n + 1 else begun n

/-- The instruction that enters in cycle `n`. -/
def entering : Nat → Option Nat
  | 0 => none
  | n + 1 =>
    if entersAt s (begun s n) = n + 1 ∧ (stateAt s (begun s n)).word ≠ 0 then some (begun s n)
    else none

variable {s}

/-! ## Times -/

theorem entersAt_lt_succ (k : Nat) : entersAt s k < entersAt s (k + 1) := by
  simp only [entersAt]
  omega

theorem entersAt_lt {j k : Nat} (h : j < k) : entersAt s j < entersAt s k := by
  induction h with
  | refl => exact entersAt_lt_succ j
  | step _ ih => exact Nat.lt_trans ih (entersAt_lt_succ _)

theorem entersAt_le {j k : Nat} (h : j ≤ k) : entersAt s j ≤ entersAt s k := by
  rcases Nat.eq_or_lt_of_le h with rfl | h
  · exact Nat.le_refl _
  · exact Nat.le_of_lt (entersAt_lt h)

theorem lt_of_entersAt_lt {j k : Nat} (h : entersAt s j < entersAt s k) : j < k := by
  apply Decidable.byContradiction
  intro hn
  have := entersAt_le (s := s) (Nat.le_of_not_lt hn)
  omega

theorem entersAt_pos (k : Nat) : 0 < entersAt s k := by
  have := entersAt_le (s := s) (Nat.zero_le k)
  simp only [entersAt] at this
  omega

/-- A word that waits for a load is an instruction, and what it waits for is not
a branch or jump. -/
theorem of_waits {k : Nat} (h : waits s (k + 1) = true) :
    InFlight.isSupported (stateAt s (k + 1)).word = true ∧
      InFlight.isTransfer (stateAt s k).word = false := by
  obtain ⟨ho, hs⟩ := InFlight.of_loadUse h
  exact ⟨hs, by rw [InFlight.isTransfer, ho]; rfl⟩

theorem isSupported_of_waits {k : Nat} (h : waits s k = true) :
    InFlight.isSupported (stateAt s k).word = true := by
  cases k with
  | zero => exact absurd h nofun
  | succ k => exact (of_waits h).1

theorem word_ne_zero_of_waits {k : Nat} (h : waits s k = true) : (stateAt s k).word ≠ 0 :=
  InFlight.ne_zero_of_isSupported (isSupported_of_waits h)

theorem entersAt_of_transfer {k : Nat} (h : InFlight.isTransfer (stateAt s k).word = true) :
    entersAt s (k + 1) = entersAt s k + 5 ∧ waits s (k + 1) = false := by
  cases hw : waits s (k + 1) with
  | true => exact absurd h (by simp [(of_waits hw).2])
  | false => simp [entersAt, h, hw]

theorem entersAt_of_waits {k : Nat} (h : waits s (k + 1) = true) :
    entersAt s (k + 1) = entersAt s k + 2 := by
  simp [entersAt, h, (of_waits h).2]

theorem entersAt_of_plain {k : Nat} (ht : InFlight.isTransfer (stateAt s k).word = false)
    (hw : waits s (k + 1) = false) : entersAt s (k + 1) = entersAt s k + 1 := by
  simp [entersAt, ht, hw]

/-! ## Counting -/

theorem begun_spec (n : Nat) :
    (∀ k, k < begun s n → (stateAt s k).word ≠ 0 ∧ entersAt s k ≤ n) ∧
      ((stateAt s (begun s n)).word ≠ 0 → n < entersAt s (begun s n)) := by
  induction n with
  | zero => exact ⟨fun k hk => absurd hk (Nat.not_lt_zero k), fun _ => entersAt_pos _⟩
  | succ n ih =>
    obtain ⟨hlt, hnext⟩ := ih
    unfold begun
    split
    · rename_i h
      constructor
      · intro k hk
        -- the one that enters now is the last of those that have entered
        rcases Nat.lt_succ_iff_lt_or_eq.mp hk with hk | rfl
        · exact ⟨(hlt k hk).1, Nat.le_succ_of_le (hlt k hk).2⟩
        · exact ⟨h.2, Nat.le_of_eq h.1⟩
      · intro _
        have := entersAt_lt_succ (s := s) (begun s n)
        omega
    · -- an instruction that does not enter in this cycle can only be due later
      rename_i h
      refine ⟨fun k hk => ⟨(hlt k hk).1, Nat.le_succ_of_le (hlt k hk).2⟩, fun h0 => ?_⟩
      have hne : entersAt s (begun s n) ≠ n + 1 := fun he => h ⟨he, h0⟩
      have := hnext h0
      omega

theorem lt_begun_iff {k n : Nat} :
    k < begun s n ↔ (stateAt s k).word ≠ 0 ∧ entersAt s k ≤ n := by
  refine ⟨(begun_spec n).1 k, fun ⟨h0, hk⟩ => ?_⟩
  apply Decidable.byContradiction
  intro hn
  have hle : begun s n ≤ k := Nat.le_of_not_lt hn
  have hlt := (begun_spec n).2 (word_ne_zero_of_le h0 hle)
  have := entersAt_le (s := s) hle
  omega

theorem entering_eq_some_iff {k n : Nat} :
    entering s n = some k ↔ (stateAt s k).word ≠ 0 ∧ entersAt s k = n := by
  cases n with
  | zero =>
    have := entersAt_pos (s := s) k
    simp only [entering, reduceCtorEq, false_iff]
    omega
  | succ n =>
    by_cases h : entersAt s (begun s n) = n + 1 ∧ (stateAt s (begun s n)).word ≠ 0
    · rw [entering, if_pos h, Option.some.injEq]
      constructor
      · rintro rfl
        exact ⟨h.2, h.1⟩
      · intro ⟨_, he⟩
        have h1 := entersAt_lt (s := s) (j := k) (k := begun s n)
        have h2 := entersAt_lt (s := s) (j := begun s n) (k := k)
        omega
    · rw [entering, if_neg h]
      simp only [reduceCtorEq, false_iff]
      intro ⟨h0, he⟩
      -- an instruction due now has not entered before, nor has one before it still to enter
      have hle : begun s n ≤ k := Nat.le_of_not_lt fun hk => by
        have := (lt_begun_iff.mp hk).2
        omega
      have hlt := (begun_spec n).2 (word_ne_zero_of_le h0 hle)
      have := entersAt_le (s := s) hle
      exact h ⟨by omega, word_ne_zero_of_le h0 hle⟩

/-- In cycle `n` nothing enters, or the next instruction does. -/
theorem begun_cases (n : Nat) :
    entering s n = none ∧ begun s n = begun s (n - 1) ∨
      entering s n = some (begun s (n - 1)) ∧ begun s n = begun s (n - 1) + 1 := by
  cases n with
  | zero => exact .inl ⟨rfl, rfl⟩
  | succ n =>
    by_cases h : entersAt s (begun s n) = n + 1 ∧ (stateAt s (begun s n)).word ≠ 0
    · exact .inr ⟨by rw [entering, if_pos h]; rfl, by rw [begun, if_pos h]; rfl⟩
    · exact .inl ⟨by rw [entering, if_neg h], by rw [begun, if_neg h]; rfl⟩

/-- Of two instructions that enter in a row, the first is no branch or jump and
the second need not wait for it. -/
theorem of_entering_pred {n j k : Nat} (hk : entering s n = some k)
    (hj : entering s (n - 1) = some j) :
    k = j + 1 ∧ InFlight.isTransfer (stateAt s j).word = false ∧ waits s k = false := by
  obtain ⟨-, hk⟩ := entering_eq_some_iff.mp hk
  obtain ⟨-, hj⟩ := entering_eq_some_iff.mp hj
  have hpos := entersAt_pos (s := s) k
  have hlt : j < k := lt_of_entersAt_lt (s := s) (by omega)
  have hlo := entersAt_lt_succ (s := s) j
  have hhi : entersAt s (j + 1) ≤ entersAt s k := entersAt_le hlt
  obtain rfl : k = j + 1 := by
    rcases Nat.eq_or_lt_of_le (Nat.succ_le_of_lt hlt) with he | hl
    · exact he.symm
    · have : entersAt s (j + 1) < entersAt s k := entersAt_lt hl
      omega
  refine ⟨rfl, ?_, ?_⟩
  · cases ht : InFlight.isTransfer (stateAt s j).word with
    | false => rfl
    | true =>
      have := (entersAt_of_transfer ht).1
      omega
  · cases hw : waits s (j + 1) with
    | false => rfl
    | true =>
      have := entersAt_of_waits hw
      omega

theorem begun_of_entering {n k : Nat} (h : entering s n = some k) :
    begun s (n - 1) = k ∧ begun s n = k + 1 := by
  rcases begun_cases (s := s) n with ⟨he, -⟩ | ⟨he, hb⟩
  · exact absurd (he.symm.trans h) nofun
  · obtain rfl := Option.some.inj (he.symm.trans h)
    exact ⟨rfl, hb⟩

theorem begun_of_entering_none {n : Nat} (h : entering s n = none) :
    begun s n = begun s (n - 1) := by
  rcases begun_cases (s := s) n with ⟨-, hb⟩ | ⟨he, -⟩
  · exact hb
  · exact absurd (h.symm.trans he) nofun

/-- Between the times of two instructions in a row nothing enters. -/
theorem entering_of_between {n k : Nat} (hlo : entersAt s k < n) (hhi : n < entersAt s (k + 1)) :
    entering s n = none := by
  cases hj : entering s n with
  | none => rfl
  | some j =>
    obtain ⟨-, hj⟩ := entering_eq_some_iff.mp hj
    have h1 : k < j := lt_of_entersAt_lt (s := s) (by omega)
    have h2 : j < k + 1 := lt_of_entersAt_lt (s := s) (by omega)
    omega

theorem entering_of_transfer {n k : Nat} (hb : InFlight.isTransfer (stateAt s k).word = true)
    (hlo : entersAt s k < n) (hhi : n < entersAt s k + 5) : entering s n = none := by
  apply entering_of_between hlo
  rwa [(entersAt_of_transfer hb).1]

/-- Before an instruction that waits nothing enters, and right before that the
load does. -/
theorem of_begun_waits {n : Nat} (hw : waits s (begun s n) = true)
    (ht : entersAt s (begun s n) = n + 1) :
    ∃ k, begun s n = k + 1 ∧ entering s n = none ∧ entering s (n - 1) = some k := by
  have h0 := word_ne_zero_of_waits hw
  cases hb : begun s n with
  | zero =>
    rw [hb] at hw
    exact absurd hw nofun
  | succ k =>
    rw [hb] at hw ht h0
    have htwo := entersAt_of_waits hw
    refine ⟨k, rfl, entering_of_between (k := k) (by omega) (by omega), ?_⟩
    exact entering_eq_some_iff.mpr ⟨word_ne_zero_of_le h0 (Nat.le_succ k), by omega⟩

/-- A branch or jump keeps those behind it away for five cycles. -/
theorem not_transfer_of_entering {n j q : Nat} (hj : entering s n = some j) (hq : j < q)
    (ht : entersAt s q < n + 5) : InFlight.isTransfer (stateAt s j).word = false := by
  obtain ⟨-, hn⟩ := entering_eq_some_iff.mp hj
  have hle : entersAt s (j + 1) ≤ entersAt s q := entersAt_le hq
  cases hb : InFlight.isTransfer (stateAt s j).word with
  | false => rfl
  | true =>
    have := (entersAt_of_transfer hb).1
    omega

theorem begun_le_succ (n : Nat) :
    begun s n ≤ begun s (n - 1) + 1 ∧ begun s (n - 1) ≤ begun s n := by
  rcases begun_cases (s := s) n with ⟨-, h⟩ | ⟨-, h⟩ <;> omega

theorem begun_sub_three (n : Nat) :
    begun s (n - 3) ≤ begun s n ∧ begun s n ≤ begun s (n - 3) + 3 := by
  have h1 := begun_le_succ (s := s) n
  have h2 : begun s (n - 1) ≤ begun s (n - 2) + 1 ∧ begun s (n - 2) ≤ begun s (n - 1) :=
    begun_le_succ (n - 1)
  have h3 : begun s (n - 2) ≤ begun s (n - 3) + 1 ∧ begun s (n - 3) ≤ begun s (n - 2) :=
    begun_le_succ (n - 2)
  omega

end Sequential

end FiveStage
