import FiveStage.Run
import FiveStage.Proofs.Phases

/-
  Timing — which slot holds which instruction, and how long a run takes

  Every slot of a machine in step is accounted for by the schedule: the first slot
  holds an instruction when it enters, and once before if it has to wait; the
  slots behind it hold a supported instruction one, two, three and four cycles
  later. The machine is idle once nothing is due any more.

  What is proved:
    1. `InStep.exists_occupant` — each slot holds the instruction that the
       schedule puts there, and nothing if there is none.
    2. `InStep.isIdle_iff` — the machine is idle when all instructions have
       entered and passed through.
    3. `exists_run` — a program that ends is run for just so many cycles.
    4. `schedule_exact` — 1 and 3 for the machine that starts on a state.
-/

namespace FiveStage

open FiveStage.Sequential

namespace Sequential

/-- When instruction `k` is in the slot of a stage. -/
def Due (s : State) (k n : Nat) : Stage → Prop
  | .fetch => n = entersAt s k ∨ n + 1 = entersAt s k ∧ waits s k = true
  | .decode => InFlight.isSupported (stateAt s k).word = true ∧ n = entersAt s k + 1
  | .execute => InFlight.isSupported (stateAt s k).word = true ∧ n = entersAt s k + 2
  | .memory => InFlight.isSupported (stateAt s k).word = true ∧ n = entersAt s k + 3
  | .writeBack => InFlight.isSupported (stateAt s k).word = true ∧ n = entersAt s k + 4

/-- Whatever has entered by the end of cycle `n` has left all slots again. -/
def Passed (s : State) (n : Nat) : Prop :=
  ∀ k, k < begun s n → entersAt s k < n ∧
    (InFlight.isSupported (stateAt s k).word = true → entersAt s k + 5 ≤ n)

/-- The first cycle at whose end none of the first `N` instructions is in a slot
behind the first any more, or will be: the largest `entersAt s k + 5` of those
that are supported. -/
def drainedAt (s : State) : Nat → Nat
  | 0 => 0
  | N + 1 =>
    if InFlight.isSupported (stateAt s N).word then max (drainedAt s N) (entersAt s N + 5)
    else drainedAt s N

/-- How many cycles a program of `N` instructions takes. -/
def cycles (s : State) : Nat → Nat
  | 0 => 0
  | N + 1 => max (entersAt s N + 1) (drainedAt s (N + 1))

/-! ## Records and their instructions -/

variable {s : State} {o : Option State}

theorem tag_decoded (s : State) :
    s.decoded.map InFlight.tag
      = if InFlight.isSupported s.word then some (s.word, s.cpu.pc) else none := by
  rw [← isSome_decoded]
  cases hd : s.decoded with
  | none => rfl
  | some d =>
    obtain ⟨o, -, hdec⟩ := InFlight.isDecoded_of_decode? hd
    rw [Option.map_some, InFlight.tag, hdec.raw, hdec.pc]
    rfl

theorem tag_executed (s : State) : s.executed.map InFlight.tag = s.decoded.map InFlight.tag := by
  unfold State.executed
  cases s.decoded <;> rfl

theorem tag_accessed (h : step s = .ok o) :
    s.accessed.map InFlight.tag = s.executed.map InFlight.tag := by
  cases he : s.executed with
  | none => rw [accessed_of_not_decoded (decoded_of_executed_none he)]
  | some e =>
    obtain ⟨a, ha, haa⟩ := accessMemory_executed h he
    rw [haa]
    rcases InFlight.accessMemory_cases ha with ⟨-, rfl, -⟩ | ⟨_, _, -, -, rfl, -⟩ |
      ⟨_, _, -, -, rfl, -⟩ <;> rfl

theorem tag_completed (h : step s = .ok o) :
    s.completed.map InFlight.tag = s.accessed.map InFlight.tag := by
  cases ha : s.accessed with
  | none => rw [completed_of_not_decoded (decoded_of_not_accessed h ha)]
  | some a =>
    obtain ⟨r, hw, hr⟩ := writeBack_accessed h ha
    obtain ⟨rfl, -⟩ := InFlight.writeBack_eq_ok_iff.mp hw
    rw [hr]
    rfl

end Sequential

theorem InFlight.nothingToFetch_of_fetch {s : State} {f : Option InFlight}
    (h : fetch s.mem s.cpu.pc = .ok f) : s.nothingToFetch = f.isNone := by
  have hin := inside_of_fetch h
  rw [fetch_of_inside hin] at h
  obtain rfl := Except.ok.inj h
  rw [State.nothingToFetch, Memory.read, if_pos hin]
  by_cases h0 : s.mem.cell s.cpu.pc.cellOf = 0
  · rw [if_pos h0]
    exact beq_iff_eq.mpr h0
  · rw [if_neg h0]
    exact beq_eq_false_iff_ne.mpr h0

theorem Machine.isIdle_eq_true_iff {m : Machine} :
    m.isIdle = true ↔ (∀ stage, m.slots.at stage = none) ∧ m.cpu.stall = false ∧
      m.state.nothingToFetch = true := by
  have hs : m.slots.isEmpty = true ↔ ∀ stage, m.slots.at stage = none := by
    simp only [Slots.isEmpty, Slots.toList, List.all_cons, List.all_nil, Bool.and_true,
      Bool.and_eq_true, Option.isNone_iff_eq_none]
    constructor
    · intro ⟨hf, hd, he, hm, hw⟩ stage
      cases stage <;> assumption
    · intro h
      exact ⟨h .fetch, h .decode, h .execute, h .memory, h .writeBack⟩
  simp only [isIdle, Bool.and_eq_true, Bool.not_eq_true', hs, and_assoc]

variable {s : State} {n : Nat} {m : Machine}

/-! ## Occupants -/

theorem due_fetch_iff {k : Nat}
    (hw : ¬(entersAt s (begun s n) = n + 1 ∧ waits s (begun s n) = true)) :
    entering s n = some k ↔ (stateAt s k).word ≠ 0 ∧ Due s k n .fetch := by
  rw [entering_eq_some_iff]
  constructor
  · intro ⟨h0, ht⟩
    exact ⟨h0, .inl ht.symm⟩
  · rintro ⟨h0, ht | ⟨ht, hwk⟩⟩
    · exact ⟨h0, ht.symm⟩
    · -- only the next instruction can be due in the first slot a cycle early
      have he : entering s (n + 1) = some k := entering_eq_some_iff.mpr ⟨h0, ht.symm⟩
      obtain rfl : begun s n = k := (begun_of_entering he).1
      exact absurd ⟨ht.symm, hwk⟩ hw

theorem Front.exists_occupant {slot : Option InFlight} {pc : Word} {stall : Bool}
    (h : Front s n slot pc stall) :
    ∃ o : Option Nat, slot.map InFlight.tag = o.map (tagAt s) ∧
      ∀ k, o = some k ↔ (stateAt s k).word ≠ 0 ∧ Due s k n .fetch := by
  cases h with
  | ready ht hw hs hpc hst => exact ⟨_, hs, fun k => due_fetch_iff (by simp [hw])⟩
  | loading ht hw hs hpc hst => exact ⟨_, hs, fun k => due_fetch_iff (by omega)⟩
  | waiting ht hw hs hpc hst =>
    refine ⟨some (begun s n), hs, fun k => ?_⟩
    constructor
    · rintro ⟨⟩
      exact ⟨word_ne_zero_of_waits hw, .inr ⟨ht.symm, hw⟩⟩
    · rintro ⟨h0, hk | ⟨hk, -⟩⟩
      · -- had `k` just entered, the one behind it would enter two cycles later
        have hb := (begun_of_entering (entering_eq_some_iff.mpr ⟨h0, hk.symm⟩)).2
        rw [hb] at ht hw
        have := entersAt_of_waits hw
        omega
      · have he : entering s (n + 1) = some k := entering_eq_some_iff.mpr ⟨h0, hk.symm⟩
        exact congrArg some (begun_of_entering he).1
  | transfer k hk ht hb hs hpc hst =>
    have he : entering s n = some k :=
      entering_eq_some_iff.mpr ⟨InFlight.ne_zero_of_isTransfer hb, ht⟩
    refine ⟨entering s n, by rw [hs, he]; rfl, fun j => due_fetch_iff ?_⟩
    simp [hk, entersAt_of_transfer hb]
  | held k hk ht hb hs hpc hst =>
    have he : entering s n = none := entering_of_transfer hb (by omega) (by omega)
    refine ⟨entering s n, by rw [hs, he]; rfl, fun j => due_fetch_iff ?_⟩
    simp [hk, entersAt_of_transfer hb]
  | resolved k hk hlo hhi hb hs hpc hst =>
    have he : entering s n = none := entering_of_transfer hb (by omega) (by omega)
    refine ⟨entering s n, by rw [hs, he]; rfl, fun j => due_fetch_iff ?_⟩
    simp [hk, entersAt_of_transfer hb]

/-- A slot behind the first holds what has entered so many cycles ago, if that is
supported. -/
theorem exists_occupant_behind (i : Nat) {record : State → Option InFlight}
    (hr : ∀ k, (record (stateAt s k)).map InFlight.tag
      = (stateAt s k).decoded.map InFlight.tag) :
    ∃ o : Option Nat,
      ((entering s (n - i)).bind fun k => record (stateAt s k)).map InFlight.tag
        = o.map (tagAt s) ∧
      ∀ k, o = some k ↔ (stateAt s k).word ≠ 0 ∧
        InFlight.isSupported (stateAt s k).word = true ∧ n = entersAt s k + i := by
  refine ⟨(entering s (n - i)).filter fun k => InFlight.isSupported (stateAt s k).word, ?_, ?_⟩
  · cases entering s (n - i) with
    | none => rfl
    | some k =>
      rw [Option.bind_some, hr, tag_decoded, Option.filter_some]
      split <;> rfl
  · intro k
    rw [Option.filter_eq_some_iff, entering_eq_some_iff]
    have hpos := entersAt_pos (s := s) k
    constructor
    · intro ⟨⟨h0, ht⟩, hsup⟩
      exact ⟨h0, hsup, by omega⟩
    · intro ⟨h0, hsup, ht⟩
      exact ⟨⟨h0, by omega⟩, hsup⟩

/-- After the program has ended and all its instructions have passed, none is due. -/
theorem not_due_of_passed (h0 : (stateAt s (begun s n)).word = 0) (hall : Passed s n)
    {k : Nat} (hk0 : (stateAt s k).word ≠ 0) (stage : Stage) : ¬Due s k n stage := by
  intro hd
  have hk (hle : entersAt s k ≤ n) := hall k (lt_begun_iff.mpr ⟨hk0, hle⟩)
  have hbehind {i : Nat} (hi : i < 5)
      (hd : InFlight.isSupported (stateAt s k).word = true ∧ n = entersAt s k + i) : False := by
    obtain ⟨hsup, he⟩ := hd
    have := (hk (by omega)).2 hsup
    omega
  cases stage with
  | fetch =>
    rcases hd with he | ⟨he, -⟩
    · exact absurd (hk (Nat.le_of_eq he.symm)).1 (by omega)
    · have hent : entering s (n + 1) = some k := entering_eq_some_iff.mpr ⟨hk0, he.symm⟩
      obtain rfl : begun s n = k := (begun_of_entering hent).1
      exact hk0 h0
  | decode => exact hbehind (by decide) hd
  | execute => exact hbehind (by decide) hd
  | memory => exact hbehind (by decide) hd
  | writeBack => exact hbehind (by decide) hd

namespace InStep

theorem exists_occupant (h : InStep s n m) (hf : NeverFaults s) (stage : Stage) :
    ∃ o : Option Nat, (m.slots.at stage).map InFlight.tag = o.map (tagAt s) ∧
      ∀ k, o = some k ↔ (stateAt s k).word ≠ 0 ∧ Due s k n stage := by
  have hexe (k : Nat) := tag_executed (stateAt s k)
  have hacc (k : Nat) : (stateAt s k).accessed.map InFlight.tag
      = (stateAt s k).decoded.map InFlight.tag := by
    obtain ⟨o, ho⟩ := hf k
    exact (tag_accessed ho).trans (hexe k)
  cases stage with
  | fetch => exact h.front.exists_occupant
  | decode =>
    rw [Slots.at, h.decode]
    exact exists_occupant_behind 1 fun k => rfl
  | execute =>
    rw [Slots.at, h.execute]
    exact exists_occupant_behind 2 hexe
  | memory =>
    rw [Slots.at, h.memory]
    exact exists_occupant_behind 3 hacc
  | writeBack =>
    rw [Slots.at, h.writeBack]
    apply exists_occupant_behind 4
    intro k
    obtain ⟨o, ho⟩ := hf k
    exact (tag_completed ho).trans (hacc k)

/-! ## Idleness -/

theorem nothingToFetch_iff (h : InStep s n m) (hf : NeverFaults s) (hset : FetchesSettled s)
    (hpc : m.cpu.pc = (stateAt s (begun s n)).cpu.pc) :
    m.state.nothingToFetch = true ↔ (stateAt s (begun s n)).word = 0 := by
  have hfetch := h.fetch_next hf (hset.settledAt _)
  rw [← hpc] at hfetch
  have hnot : m.state.nothingToFetch = (stateAt s (begun s n)).fetched.isNone :=
    InFlight.nothingToFetch_of_fetch hfetch
  rw [hnot, State.fetched]
  split
  · rename_i h0
    exact ⟨fun _ => h0, fun _ => rfl⟩
  · rename_i h0
    exact ⟨fun h => absurd h Bool.false_ne_true, fun hz => absurd hz h0⟩

/-- Every instruction that is due somewhere keeps the machine from being idle. -/
theorem not_due_of_isIdle (h : InStep s n m) (hf : NeverFaults s) (hi : m.isIdle = true) {k : Nat}
    (h0 : (stateAt s k).word ≠ 0) (stage : Stage) : ¬Due s k n stage := by
  intro hd
  obtain ⟨o, ho, hdue⟩ := h.exists_occupant hf stage
  rw [(Machine.isIdle_eq_true_iff.mp hi).1 stage, (hdue k).mpr ⟨h0, hd⟩] at ho
  exact absurd ho nofun

/-- After the program has ended and all its instructions have passed, fetching
stands where it has ended. -/
theorem front_of_passed (h : InStep s n m) (h0 : (stateAt s (begun s n)).word = 0)
    (hall : Passed s n) :
    m.cpu.stall = false ∧ m.cpu.pc = (stateAt s (begun s n)).cpu.pc := by
  have htransfer {k : Nat} (hk : begun s n = k + 1)
      (hb : InFlight.isTransfer (stateAt s k).word = true) : entersAt s k + 5 ≤ n :=
    (hall k (hk ▸ Nat.lt_succ_self k)).2 (InFlight.isSupported_of_isTransfer hb)
  cases h.front with
  | ready ht hw hs hpc hst => exact ⟨hst, hpc⟩
  | loading ht hw hs hpc hst => exact ⟨hst, hpc⟩
  | waiting ht hw hs hpc hst => exact absurd h0 (word_ne_zero_of_waits hw)
  | transfer k hk ht hb hs hpc hst => have := htransfer hk hb; omega
  | held k hk ht hb hs hpc hst => have := htransfer hk hb; omega
  | resolved k hk hlo hhi hb hs hpc hst => have := htransfer hk hb; omega

/-- The machine is idle once the program has ended, the last instruction has left
the first slot and the supported ones have left the last. -/
theorem isIdle_iff (h : InStep s n m) (hf : NeverFaults s) (hset : FetchesSettled s) :
    m.isIdle = true ↔ (stateAt s (begun s n)).word = 0 ∧ Passed s n := by
  constructor
  · intro hi
    obtain ⟨hslots, hstall, hno⟩ := Machine.isIdle_eq_true_iff.mp hi
    have hslot : m.slots.fetch = none := hslots .fetch
    refine ⟨?_, fun k hk => ?_⟩
    · -- in the other phases the first slot is taken or fetching stalls
      cases h.front with
      | ready ht hw hs hpc hst => exact (h.nothingToFetch_iff hf hset hpc).mp hno
      | loading ht hw hs hpc hst => exact (h.nothingToFetch_iff hf hset hpc).mp hno
      | waiting ht hw hs hpc hst => rw [hslot] at hs; exact absurd hs nofun
      | transfer k hk ht hb hs hpc hst => rw [hslot] at hs; exact absurd hs nofun
      | held k hk ht hb hs hpc hst => exact absurd (hst.symm.trans hstall) nofun
      | resolved k hk hlo hhi hb hs hpc hst => exact absurd (hst.symm.trans hstall) nofun
    · obtain ⟨hk0, hle⟩ := lt_begun_iff.mp hk
      have hnot := h.not_due_of_isIdle hf hi hk0
      have hn0 : n ≠ entersAt s k := fun he => hnot .fetch (.inl he)
      refine ⟨by omega, fun hsup => ?_⟩
      have hn1 : n ≠ entersAt s k + 1 := fun he => hnot .decode ⟨hsup, he⟩
      have hn2 : n ≠ entersAt s k + 2 := fun he => hnot .execute ⟨hsup, he⟩
      have hn3 : n ≠ entersAt s k + 3 := fun he => hnot .memory ⟨hsup, he⟩
      have hn4 : n ≠ entersAt s k + 4 := fun he => hnot .writeBack ⟨hsup, he⟩
      omega
  · intro ⟨h0, hall⟩
    have hslots (stage : Stage) : m.slots.at stage = none := by
      obtain ⟨o, ho, hdue⟩ := h.exists_occupant hf stage
      cases o with
      | none => exact Option.map_eq_none_iff.mp ho
      | some k =>
        obtain ⟨hk0, hd⟩ := (hdue k).mp rfl
        exact absurd hd (not_due_of_passed h0 hall hk0 stage)
    have hfront := h.front_of_passed h0 hall
    exact Machine.isIdle_eq_true_iff.mpr
      ⟨hslots, hfront.1, (h.nothingToFetch_iff hf hset hfront.2).mpr h0⟩

end InStep

/-! ## Runs -/

theorem drainedAt_le_iff {N : Nat} :
    drainedAt s N ≤ n ↔ ∀ k, k < N →
      InFlight.isSupported (stateAt s k).word = true → entersAt s k + 5 ≤ n := by
  induction N with
  | zero => exact ⟨fun _ k hk => absurd hk (Nat.not_lt_zero k), fun _ => Nat.zero_le n⟩
  | succ N ih =>
    simp only [Nat.lt_succ_iff_lt_or_eq, or_imp, forall_and, forall_eq, ← ih, drainedAt]
    cases InFlight.isSupported (stateAt s N).word with
    | false => simp
    | true =>
      rw [if_pos rfl, Nat.max_le]
      exact and_congr_right fun _ => ⟨fun h _ => h, fun h => h rfl⟩

theorem begun_le_of_haltsAfter {N : Nat} (hN : HaltsAfter s N) : begun s n ≤ N := by
  apply Decidable.byContradiction
  intro hn
  have h0 := (lt_begun_iff.mp (Nat.lt_of_not_le hn)).1
  exact absurd (hN.word_ne_zero_iff.mp h0) (Nat.lt_irrefl N)

theorem begun_eq_iff {N : Nat} (hN : HaltsAfter s N) :
    (stateAt s (begun s n)).word = 0 ↔ begun s n = N := by
  have hle := begun_le_of_haltsAfter (n := n) hN
  have hiff := hN.word_ne_zero_iff (k := begun s n)
  constructor
  · intro h0
    have : ¬begun s n < N := fun hlt => hiff.mpr hlt h0
    omega
  · intro he
    exact Decidable.byContradiction fun h0 => Nat.lt_irrefl N (he ▸ hiff.mp h0)

theorem InStep.isIdle_iff_cycles_le (h : InStep s n m) (hset : FetchesSettled s) {N : Nat}
    (hN : HaltsAfter s N) : m.isIdle = true ↔ cycles s N ≤ n := by
  rw [h.isIdle_iff hN.neverFaults hset, begun_eq_iff hN]
  cases N with
  | zero =>
    have hb : begun s n = 0 := Nat.le_zero.mp (begun_le_of_haltsAfter hN)
    simp [hb, cycles, Passed]
  | succ N =>
    rw [cycles, Nat.max_le, drainedAt_le_iff]
    constructor
    · intro ⟨hb, hall⟩
      rw [Passed, hb] at hall
      exact ⟨(hall N (Nat.lt_succ_self N)).1, fun k hk => (hall k hk).2⟩
    · intro ⟨hlast, hall⟩
      have hlt : N < begun s n := lt_begun_iff.mpr
        ⟨hN.word_ne_zero_iff.mpr (Nat.lt_succ_self N), Nat.le_of_lt hlast⟩
      have hb : begun s n = N + 1 := Nat.le_antisymm (begun_le_of_haltsAfter hN) hlt
      rw [Passed, hb]
      refine ⟨rfl, fun k hk => ⟨?_, hall k hk⟩⟩
      exact Nat.lt_of_le_of_lt (entersAt_le (Nat.le_of_lt_succ hk)) hlast

/-- A run that makes its steps along a course up to step `C` gets there if its
budget reaches so far. -/
theorem Run.go_reaches {σ : Type} {step : σ → Except (Breakdown σ) (Option σ)}
    (P : Nat → σ → Prop) {C : Nat}
    (hstep : ∀ k x, k < C → P k x → ∃ y, step x = .ok (some y) ∧ P (k + 1) y)
    {budget k : Nat} {x : σ} (hx : P k x) (hk : k ≤ C) (hb : C ≤ k + budget) :
    ∃ y, P C y ∧
      go step (nobody σ) budget k x () = go step (nobody σ) (k + budget - C) C y () := by
  induction budget generalizing k x with
  | zero =>
    obtain rfl : k = C := Nat.le_antisymm hk hb
    exact ⟨x, hx, by rw [Nat.add_zero, Nat.sub_self]⟩
  | succ budget ih =>
    -- the run is there, or has a step to go
    rcases Nat.eq_or_lt_of_le hk with rfl | hlt
    · exact ⟨x, hx, by rw [Nat.add_sub_cancel_left]⟩
    · obtain ⟨y, hy, hon⟩ := hstep k x hlt hx
      obtain ⟨z, hz, hgo⟩ := ih hon hlt (by omega)
      refine ⟨z, hz, ?_⟩
      rw [show k + (budget + 1) - C = k + 1 + budget - C by omega, ← hgo]
      simp only [go, hy, nobody]

/-- If nothing is left to do there, it ends there. -/
theorem Run.exists_go {σ : Type} {step : σ → Except (Breakdown σ) (Option σ)}
    (P : Nat → σ → Prop) {C : Nat}
    (hstep : ∀ k x, k < C → P k x → ∃ y, step x = .ok (some y) ∧ P (k + 1) y)
    (hend : ∀ x, P C x → step x = .ok none) {budget k : Nat} {x : σ} (hx : P k x) (hk : k ≤ C)
    (hb : C ≤ k + budget) :
    ∃ y, P C y ∧ go step (nobody σ) budget k x () = ⟨y, C, (), .complete⟩ := by
  obtain ⟨y, hy, hgo⟩ := go_reaches P hstep hx hk hb
  refine ⟨y, hy, hgo.trans ?_⟩
  cases k + budget - C with
  | zero => rfl
  | succ _ => simp only [go, hend y hy]

/-- A program that ends is run for as many cycles as the schedule says. -/
theorem exists_run (hs : s.cpu.stall = false) (hset : FetchesSettled s) (hti : TransfersInside s)
    {N : Nat} (hN : HaltsAfter s N) {budget : Nat} (hb : cycles s N ≤ budget) :
    ∃ m, InStep s (cycles s N) m ∧
      (Machine.start s).run budget = ⟨m, cycles s N, (), .complete⟩ := by
  have hf := hN.neverFaults
  refine Run.exists_go (InStep s) ?_ ?_ (inStep_start hs) (Nat.zero_le _) (by omega)
  · intro n m hn hin
    have hidle : m.isIdle = false := by
      rw [← Bool.not_eq_true, hin.isIdle_iff_cycles_le hset hN]
      exact Nat.not_le_of_lt hn
    obtain ⟨m', hm', hin'⟩ := inStep_step hin hf (hset.settledAt _) hti
    exact ⟨m', by rw [Machine.stepUnlessIdle, hidle, hm']; rfl, hin'⟩
  · intro m hin
    have hidle := (hin.isIdle_iff_cycles_le hset hN).mpr (Nat.le_refl _)
    rw [Machine.stepUnlessIdle, if_pos hidle]

/-- At the end of every cycle each slot holds the instruction that is due in it,
and nothing if none is. A program that ends after `N + 1` instructions is run
until the last of them has left the first slot and all supported ones the last. -/
theorem schedule_exact (hs : s.cpu.stall = false) (hf : NeverFaults s) (hset : FetchesSettled s)
    (hti : TransfersInside s) :
    (∀ n, ∃ m, (Machine.start s).after n = .ok m ∧ ∀ stage,
      ∃ o : Option Nat, (m.slots.at stage).map InFlight.tag = o.map (tagAt s) ∧
        ∀ k, o = some k ↔ (stateAt s k).word ≠ 0 ∧ Due s k n stage) ∧
    ∀ N, HaltsAfter s (N + 1) → ∀ budget,
      max (entersAt s N + 1) (drainedAt s (N + 1)) ≤ budget →
        ((Machine.start s).run budget).ending = .complete ∧
          ((Machine.start s).run budget).steps
            = max (entersAt s N + 1) (drainedAt s (N + 1)) := by
  constructor
  · intro n
    obtain ⟨m, hm, hin⟩ := exists_inStep hs hf hset hti n
    exact ⟨m, hm, hin.exists_occupant hf⟩
  · intro N hN budget hb
    obtain ⟨m, -, hrun⟩ := exists_run hs hset hti hN hb
    rw [hrun]
    exact ⟨rfl, rfl⟩

/-- The addition is in the first slot a cycle before it enters, and the program
takes fourteen cycles. -/
theorem schedule_of_detour :
    (∃ m, (Machine.start detour).after 2 = .ok m ∧
      m.slots.fetch.map InFlight.tag = some (tagAt detour 1)) ∧
    entersAt detour 1 = 3 ∧ ((Machine.start detour).run 100).steps = 14 := by
  obtain ⟨hslots, hrun⟩ := schedule_exact rfl haltsAfter_detour.neverFaults
    fetchesSettled_detour transfersInside_detour
  obtain ⟨m, hm, hat⟩ := hslots 2
  obtain ⟨o, ho, hdue⟩ := hat .fetch
  have hone : o = some 1 := (hdue 1).mpr ⟨by decide, .inr (by decide)⟩
  rw [hone] at ho
  exact ⟨⟨m, hm, ho⟩, by decide, (hrun 4 haltsAfter_detour 100 (by decide)).2.trans (by decide)⟩

end FiveStage
