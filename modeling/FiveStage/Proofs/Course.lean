import FiveStage.Sequential
import FiveStage.Proofs.Stages

/-
  The course of a program — what sequential execution does, step by step

  The course is a state for every step number. It stands still where there is
  nothing left to run, so a program that ends has a course as well, and where a
  step faults. Beside the states it gives the record of the instruction that a
  step runs, as each of the stages leaves it.

  What is proved:
    1. `step_of_inside`, `inside_of_step` — a step looks at one word, which has
       to lie in memory.
    2. `accessMemory_executed`, `writeBack_accessed`, `pc_next` — the memory,
       the registers and the program counter of the next state are what the
       stages, taken one by one, make of the records.
    3. `decode?_next`, `supplyFrom_accessed`, `supplyFrom_executed` — what is
       decoded after a step is what was decoded before it, supplied by the
       instruction that the step runs, as any of its later stages has it.
    4. `stateAt_of_word_zero`, `stateAt_of_skipped` — a course that has come to a
       zero word stays, and skipped words change nothing but the program counter.

  Three conditions on a course are named, because the pipeline relies on them:
  `NeverFaults`, `FetchesSettled` and `TransfersInside`. `HaltsAfter` says that it
  comes to rest.
-/

namespace FiveStage

namespace State

/-- The word at the program counter; outside memory there is nothing but zeros. -/
def word (s : State) : Word := s.mem.cell s.cpu.pc.cellOf

/-- Whether the program counter lies in memory. -/
def Inside (s : State) : Prop := s.cpu.pc.cellOf < s.mem.capacity

/-- The instruction at the program counter as it is fetched. -/
def fetched (s : State) : Option InFlight :=
  if s.word = 0 then none else some (.fetched s.word s.cpu.pc)

/-- The instruction at the program counter, decoded. -/
def decoded (s : State) : Option InFlight :=
  (InFlight.fetched s.word s.cpu.pc).decode? s.cpu.regs

/-- The same after execution. -/
def executed (s : State) : Option InFlight := s.decoded.map (·.execute.1)

/-- Where execution moves the program counter. -/
def target? (s : State) : Option Word := s.decoded.bind (·.execute.2)

/-- The same after memory access. -/
def accessed (s : State) : Option InFlight :=
  s.executed.bind fun i => (i.accessMemory s.mem).toOption.map Prod.fst

/-- The instruction at the program counter as sequential execution ends with it. -/
def completed (s : State) : Option InFlight :=
  s.decoded.bind fun i => (Sequential.complete s i).toOption.map Prod.fst

end State

namespace InFlight

theorem fetch_of_inside {mem : Memory} {pc : Word} (h : pc.cellOf < mem.capacity) :
    fetch mem pc = .ok (if mem.cell pc.cellOf = 0 then none
      else some (fetched (mem.cell pc.cellOf) pc)) := by
  simp only [fetch, Memory.load, Memory.read, if_pos h]
  rfl

theorem inside_of_fetch {mem : Memory} {pc : Word} {o : Option InFlight}
    (h : fetch mem pc = .ok o) : pc.cellOf < mem.capacity := by
  apply Decidable.byContradiction
  intro hn
  simp only [fetch, Memory.load, Memory.read, if_neg hn] at h
  exact absurd h nofun

end InFlight

namespace Sequential

/-! ## One step -/

variable {s s' : State} {i r : InFlight} {o : Option State}

theorem complete_eq_ok_iff :
    complete s i = .ok (r, s') ↔
      ∃ a mem regs, i.execute.1.accessMemory s.mem = .ok (a, mem) ∧
        a.writeBack s.cpu.regs = .ok (r, regs) ∧
        s' = ⟨{ s.cpu with pc := i.execute.2.getD (s.cpu.pc + 4), regs := regs }, mem⟩ := by
  unfold complete
  cases ha : i.execute.1.accessMemory s.mem with
  | error e => simp [ha]
  | ok am =>
    obtain ⟨a, mem⟩ := am
    cases hw : a.writeBack s.cpu.regs with
    | error e => simp [ha, hw]
    | ok rr =>
      obtain ⟨j, regs⟩ := rr
      simp only [ha, hw, Except.ok.injEq, Prod.mk.injEq]
      constructor
      · rintro ⟨rfl, rfl⟩
        exact ⟨a, mem, regs, ⟨rfl, rfl⟩, hw, rfl⟩
      · rintro ⟨a', mem', regs', ⟨rfl, rfl⟩, hw', rfl⟩
        obtain ⟨rfl, rfl⟩ := Prod.mk.inj (Except.ok.inj (hw.symm.trans hw'))
        exact ⟨rfl, rfl⟩

theorem inside_of_step (h : step s = .ok o) : s.Inside := by
  unfold step at h
  cases hf : InFlight.fetch s.mem s.cpu.pc with
  | error e => simp [hf] at h
  | ok f => exact InFlight.inside_of_fetch hf

theorem step_of_inside (h : s.Inside) :
    step s = if s.word = 0 then .ok none
      else
        match s.decoded with
        | none => .ok (some (skip s))
        | some i => (complete s i).map fun done => some done.2 := by
  unfold step
  rw [InFlight.fetch_of_inside h]
  by_cases h0 : s.word = 0
  · have h0' : s.mem.cell s.cpu.pc.cellOf = 0 := h0
    simp only [h0', h0, if_true]
  · have h0' : s.mem.cell s.cpu.pc.cellOf ≠ 0 := h0
    simp only [h0', h0, if_false]
    rfl

/-! ## The next state, stage by stage -/

/-- The state after a step. Where there is nothing to run, or the step faults, it
is the same state. -/
def next (s : State) : State :=
  match step s with
  | .ok (some s') => s'
  | _ => s

theorem next_of_word_zero (h0 : s.word = 0) : next s = s := by
  unfold next
  cases h : step s with
  | error b => rfl
  | ok o =>
    rw [step_of_inside (inside_of_step h), if_pos h0] at h
    obtain rfl := Except.ok.inj h
    rfl

/-- No opcode is zero. -/
theorem decoded_of_word_zero (h0 : s.word = 0) : s.decoded = none := by
  have ho : Opcode.ofWord? 0 = none := by decide
  simp only [State.decoded, InFlight.decode?, InFlight.fetched, h0, ho, Option.map_none]

theorem isSome_decoded (s : State) : s.decoded.isSome = InFlight.isSupported s.word :=
  InFlight.isSome_decode? _ _

theorem decoded_eq_none_iff : s.decoded = none ↔ InFlight.isSupported s.word = false := by
  rw [← isSome_decoded, Option.isSome_eq_false_iff, Option.isNone_iff_eq_none]

theorem next_of_skipped (h : step s = .ok o) (h0 : s.word ≠ 0) (hd : s.decoded = none) :
    next s = skip s := by
  have hin := inside_of_step h
  simp only [next, step_of_inside hin, if_neg h0, hd]

/-- A step that runs an instruction takes it through all stages. -/
theorem complete_decoded (h : step s = .ok o) (hd : s.decoded = some i) :
    ∃ r, complete s i = .ok (r, next s) := by
  have h0 : s.word ≠ 0 := fun h0 => by simp [decoded_of_word_zero h0] at hd
  have hs := step_of_inside (inside_of_step h)
  rw [if_neg h0, hd] at hs
  cases hc : complete s i with
  | error b => simp [hs, hc, Except.map] at h
  | ok done =>
    refine ⟨done.1, ?_⟩
    simp only [next, hs, hc, Except.map]

theorem decoded_of_executed_none (h : s.executed = none) : s.decoded = none :=
  Option.map_eq_none_iff.mp h

/-- A step without an instruction changes the program counter at most. -/
theorem next_of_not_decoded (h : step s = .ok o) (hd : s.decoded = none) :
    (next s).mem = s.mem ∧ (next s).cpu.regs = s.cpu.regs := by
  by_cases h0 : s.word = 0
  · rw [next_of_word_zero h0]
    exact ⟨rfl, rfl⟩
  · rw [next_of_skipped h h0 hd]
    exact ⟨rfl, rfl⟩

/-- What an instruction that runs comes to, stage by stage. -/
theorem exists_completed (h : step s = .ok o) (hd : s.decoded = some i) :
    ∃ r a mem regs, complete s i = .ok (r, next s) ∧
      i.execute.1.accessMemory s.mem = .ok (a, mem) ∧ a.writeBack s.cpu.regs = .ok (r, regs) ∧
      next s = ⟨{ s.cpu with pc := i.execute.2.getD (s.cpu.pc + 4), regs := regs }, mem⟩ := by
  obtain ⟨r, hc⟩ := complete_decoded h hd
  obtain ⟨a, mem, regs, ha, hw, hn⟩ := complete_eq_ok_iff.mp hc
  exact ⟨r, a, mem, regs, hc, ha, hw, hn⟩

theorem accessMemory_executed {e : InFlight} (h : step s = .ok o) (he : s.executed = some e) :
    ∃ a, e.accessMemory s.mem = .ok (a, (next s).mem) ∧ s.accessed = some a := by
  obtain ⟨d, hd, rfl⟩ := Option.map_eq_some_iff.mp he
  obtain ⟨r, a, mem, regs, -, ha, -, hn⟩ := exists_completed h hd
  have hm : (next s).mem = mem := by rw [hn]
  refine ⟨a, hm ▸ ha, ?_⟩
  simp only [State.accessed, he, Option.bind_some, ha, Except.toOption, Option.map_some]

theorem writeBack_accessed {a : InFlight} (h : step s = .ok o) (ha : s.accessed = some a) :
    ∃ r, a.writeBack s.cpu.regs = .ok (r, (next s).cpu.regs) ∧ s.completed = some r := by
  obtain ⟨e, he, -⟩ := Option.bind_eq_some_iff.mp ha
  obtain ⟨d, hd, rfl⟩ := Option.map_eq_some_iff.mp he
  obtain ⟨r, a', mem, regs, hc, ha', hw, hn⟩ := exists_completed h hd
  have haa : s.accessed = some a' := by
    simp only [State.accessed, he, Option.bind_some, ha', Except.toOption, Option.map_some]
  obtain rfl := Option.some.inj (haa.symm.trans ha)
  have hr : (next s).cpu.regs = regs := by rw [hn]
  refine ⟨r, hr ▸ hw, ?_⟩
  simp only [State.completed, hd, Option.bind_some, hc, Except.toOption, Option.map_some]

/-- Either all stages of a step have a record, or none has. -/
theorem accessed_of_not_decoded (hd : s.decoded = none) : s.accessed = none := by
  simp only [State.accessed, State.executed, hd, Option.map_none, Option.bind_none]

theorem completed_of_not_decoded (hd : s.decoded = none) : s.completed = none := by
  simp only [State.completed, hd, Option.bind_none]

theorem decoded_of_not_accessed (h : step s = .ok o) (ha : s.accessed = none) :
    s.decoded = none := by
  cases hd : s.decoded with
  | none => rfl
  | some d =>
    have he : s.executed = some d.execute.1 := by rw [State.executed, hd, Option.map_some]
    obtain ⟨a, -, haa⟩ := accessMemory_executed h he
    rw [haa] at ha
    exact absurd ha nofun

theorem decoded_of_not_completed (h : step s = .ok o) (hc : s.completed = none) :
    s.decoded = none := by
  cases ha : s.accessed with
  | none => exact decoded_of_not_accessed h ha
  | some a =>
    obtain ⟨r, -, hr⟩ := writeBack_accessed h ha
    rw [hr] at hc
    exact absurd hc nofun

theorem pc_next (h : step s = .ok o) (h0 : s.word ≠ 0) :
    (next s).cpu.pc = s.target?.getD (s.cpu.pc + 4) := by
  cases hd : s.decoded with
  | none =>
    rw [next_of_skipped h h0 hd, State.target?, hd]
    rfl
  | some d =>
    obtain ⟨r, a, mem, regs, -, -, -, hn⟩ := exists_completed h hd
    rw [hn, State.target?, hd]
    rfl

theorem target?_eq_none (ht : InFlight.isTransfer s.word = false) : s.target? = none := by
  rw [State.target?]
  cases hd : s.decoded with
  | none => rfl
  | some d =>
    obtain ⟨opcode, ho, hdec⟩ := InFlight.isDecoded_of_decode? hd
    have hcf : opcode.isControlFlow = false := by
      change Opcode.ofWord? s.word = some opcode at ho
      simpa [InFlight.isTransfer, ho] using ht
    exact InFlight.target_eq_none hdec hcf

theorem pc_next_of_not_transfer (h : step s = .ok o) (h0 : s.word ≠ 0)
    (ht : InFlight.isTransfer s.word = false) : (next s).cpu.pc = s.cpu.pc + 4 := by
  rw [pc_next h h0, target?_eq_none ht, Option.getD_none]

theorem capacity_next (s : State) : (next s).mem.capacity = s.mem.capacity := by
  cases h : step s with
  | error b => rw [next, h]
  | ok o =>
    cases he : s.executed with
    | none => rw [(next_of_not_decoded h (decoded_of_executed_none he)).1]
    | some e =>
      obtain ⟨a, ha, -⟩ := accessMemory_executed h he
      exact InFlight.capacity_of_accessMemory ha

theorem stall_next (s : State) : (next s).cpu.stall = s.cpu.stall := by
  cases h : step s with
  | error b => rw [next, h]
  | ok o =>
    by_cases h0 : s.word = 0
    · rw [next_of_word_zero h0]
    · cases hd : s.decoded with
      | none => rw [next_of_skipped h h0 hd]; rfl
      | some i =>
        obtain ⟨r, a, mem, regs, -, -, -, hn⟩ := exists_completed h hd
        rw [hn]

/-! ## Operands and writers -/

/-- What is decoded after a step is what was decoded before it, supplied by the
instruction that the step ran. -/
theorem decode?_next (h : step s = .ok o) (f : InFlight) :
    f.decode? (next s).cpu.regs = (f.decode? s.cpu.regs).map (Hazard.supplyFrom s.completed) := by
  cases ha : s.accessed with
  | none =>
    have hd := decoded_of_not_accessed h ha
    rw [(next_of_not_decoded h hd).2, completed_of_not_decoded hd]
    exact Option.map_id'.symm
  | some a =>
    obtain ⟨r, hw, hc⟩ := writeBack_accessed h ha
    rw [hc]
    exact InFlight.decode?_writeBack hw f

theorem supplyFrom_accessed (h : step s = .ok o) (i : InFlight) :
    Hazard.supplyFrom s.accessed i = Hazard.supplyFrom s.completed i := by
  cases ha : s.accessed with
  | none => rw [completed_of_not_decoded (decoded_of_not_accessed h ha)]
  | some a =>
    obtain ⟨r, hw, hc⟩ := writeBack_accessed h ha
    obtain ⟨rfl, -⟩ := InFlight.writeBack_eq_ok_iff.mp hw
    rw [hc]
    rfl

/-- Before memory access it is the same, unless the instruction has to wait. -/
theorem supplyFrom_executed (h : step s = .ok o) {i : InFlight}
    (hn : s.executed.any (InFlight.awaits · i) = false) :
    Hazard.supplyFrom s.executed i = Hazard.supplyFrom s.accessed i := by
  cases he : s.executed with
  | none => rw [accessed_of_not_decoded (decoded_of_executed_none he)]
  | some e =>
    obtain ⟨a, ha, haa⟩ := accessMemory_executed h he
    rw [he, Option.any_some] at hn
    rw [haa, InFlight.supplyFrom_accessMemory ha ?_ hn]
    -- only a load has prepared a load
    intro x hx hk
    obtain ⟨d, hd, rfl⟩ := Option.map_eq_some_iff.mp he
    obtain ⟨opcode, -, hdec⟩ := InFlight.isDecoded_of_decode? hd
    have hx' : (d.effectOf opcode.format opcode).access = some x := by
      change d.effect.access.or d.access = some x at hx
      rwa [hdec.access, Option.or_none, hdec.effect] at hx
    show (d.opcode == some .load) = true
    rw [hdec.opcode, InFlight.opcode_of_load_access hx' hk]
    rfl

/-- Whether an instruction waits for the one that a step runs is settled by the
two words. -/
theorem awaits_executed (s : State) {g i : InFlight} {regs : Registers}
    (hi : g.decode? regs = some i) :
    s.executed.any (InFlight.awaits · i) = InFlight.loadUse s.word g.raw := by
  obtain ⟨o', ho', hdec'⟩ := InFlight.isDecoded_of_decode? hi
  cases hd : s.decoded with
  | none =>
    have ho : Opcode.ofWord? s.word = none := Option.map_eq_none_iff.mp hd
    simp [State.executed, hd, InFlight.loadUse, ho]
  | some d =>
    obtain ⟨o, ho, hdec⟩ := InFlight.isDecoded_of_decode? hd
    rw [State.executed, hd]
    exact InFlight.awaits_execute hdec ho hdec' ho'

/-- A step ends with a branch or jump exactly if its word is one. -/
theorem controlFlowIn_completed (h : step s = .ok o) :
    Hazard.controlFlowIn s.completed = InFlight.isTransfer s.word := by
  cases ha : s.accessed with
  | none =>
    have hd := decoded_of_not_accessed h ha
    have ho : Opcode.ofWord? s.word = none := Option.map_eq_none_iff.mp hd
    rw [completed_of_not_decoded hd, InFlight.isTransfer, ho]
    rfl
  | some a =>
    obtain ⟨r, hw, hc⟩ := writeBack_accessed h ha
    obtain ⟨e, he, haa⟩ := Option.bind_eq_some_iff.mp ha
    obtain ⟨d, hd, rfl⟩ := Option.map_eq_some_iff.mp he
    obtain ⟨a', hacc, ha'⟩ := accessMemory_executed h he
    obtain rfl := Option.some.inj (ha.symm.trans ha')
    obtain ⟨opcode, ho, hdec⟩ := InFlight.isDecoded_of_decode? hd
    have hop : r.opcode = some opcode := by
      rw [InFlight.opcode_of_writeBack hw, InFlight.opcode_of_accessMemory hacc]
      exact hdec.opcode
    change Opcode.ofWord? s.word = some opcode at ho
    rw [hc, InFlight.isTransfer, ho]
    show r.opcode.any Opcode.isControlFlow = _
    rw [hop]

/-! ## The course -/

/-- The state in which step `k` is made, counting from zero. -/
def stateAt (s : State) : Nat → State
  | 0 => s
  | k + 1 => next (stateAt s k)

theorem stateAt_of_word_zero {s : State} {k : Nat} (h0 : (stateAt s k).word = 0) {j : Nat}
    (hj : k ≤ j) : stateAt s j = stateAt s k := by
  induction hj with
  | refl => rfl
  | step _ ih => rw [stateAt, ih, next_of_word_zero h0]

theorem word_ne_zero_of_le {s : State} {j k : Nat} (hk : (stateAt s k).word ≠ 0) (hj : j ≤ k) :
    (stateAt s j).word ≠ 0 := by
  intro h0
  rw [stateAt_of_word_zero h0 hj] at hk
  exact hk h0

theorem capacity_stateAt (s : State) (k : Nat) : (stateAt s k).mem.capacity = s.mem.capacity := by
  induction k with
  | zero => rfl
  | succ k ih => rw [stateAt, capacity_next, ih]

theorem stall_stateAt (s : State) (k : Nat) :
    (stateAt s k).cpu.stall = s.cpu.stall := by
  induction k with
  | zero => rfl
  | succ k ih => rw [stateAt, stall_next, ih]

/-! ## What is asked of a course -/

/-- No step faults, whether or not the program ends. -/
def NeverFaults (s : State) : Prop := ∀ k, ∃ o, step (stateAt s k) = .ok o

/-- No step changes the word that one of the three steps after it fetches. Only
stores change memory at all. The step at which a program ends fetches a word too. -/
def FetchesSettled (s : State) : Prop :=
  ∀ k j, k < j → j ≤ k + 3 →
    (stateAt s (k + 1)).mem.cell (stateAt s j).cpu.pc.cellOf
      = (stateAt s k).mem.cell (stateAt s j).cpu.pc.cellOf

/-- The same of the word that step `q` fetches. -/
def SettledAt (s : State) (q : Nat) : Prop :=
  ∀ k, k < q → q ≤ k + 3 →
    (stateAt s (k + 1)).mem.cell (stateAt s q).cpu.pc.cellOf
      = (stateAt s k).mem.cell (stateAt s q).cpu.pc.cellOf

theorem FetchesSettled.settledAt {s : State} (h : FetchesSettled s) (q : Nat) : SettledAt s q :=
  fun k hk hq => h k q hk hq

/-- Right behind every branch or jump that is executed there is still memory. -/
def TransfersInside (s : State) : Prop :=
  ∀ k, InFlight.isTransfer (stateAt s k).word = true →
    ((stateAt s k).cpu.pc + 4).cellOf < s.mem.capacity

/-- A stretch of skipped words leaves the registers and memory alone. -/
theorem stateAt_of_skipped {s : State} (hf : NeverFaults s) {j k : Nat} (hjk : j ≤ k)
    (hskip : ∀ i, j ≤ i → i < k → InFlight.isSupported (stateAt s i).word = false) :
    (stateAt s k).mem = (stateAt s j).mem ∧ (stateAt s k).cpu.regs = (stateAt s j).cpu.regs := by
  induction hjk with
  | refl => exact ⟨rfl, rfl⟩
  | step hjk ih =>
    rename_i k
    obtain ⟨hm, hr⟩ := ih fun i hji hik => hskip i hji (Nat.lt_succ_of_lt hik)
    obtain ⟨o, ho⟩ := hf k
    have hd := decoded_eq_none_iff.mpr (hskip k hjk (Nat.lt_succ_self k))
    obtain ⟨hm', hr'⟩ := next_of_not_decoded ho hd
    exact ⟨hm'.trans hm, hr'.trans hr⟩

/-- The word that a step fetches has been in memory for three steps. -/
theorem cell_of_settledAt {s : State} {j q : Nat} (h : SettledAt s q) (hj : j ≤ q)
    (hq : q ≤ j + 3) :
    (stateAt s j).mem.cell (stateAt s q).cpu.pc.cellOf = (stateAt s q).word := by
  induction hn : q - j generalizing j with
  | zero =>
    obtain rfl : j = q := by omega
    rfl
  | succ n ih =>
    -- step `j` leaves the word alone, so it was there a step earlier
    rw [← h j (by omega) hq]
    exact ih (by omega) (by omega) (by omega)

/-! ## Programs that end -/

/-- The program comes to a zero word after `N` steps, and none of them faults. -/
def HaltsAfter (s : State) (N : Nat) : Prop :=
  (∀ k, k < N → ∃ s', step (stateAt s k) = .ok (some s')) ∧ step (stateAt s N) = .ok none

/-- Whether a program ends after `N` steps is found out by making them. -/
theorem haltsAfter_iff {s : State} {N : Nat} :
    HaltsAfter s N ↔
      (∀ k, k < N → (step (stateAt s k)).toOption.join.isSome = true) ∧
        (step (stateAt s N)).toOption.map Option.isNone = some true := by
  refine and_congr (forall₂_congr fun k _ => ?_) ?_
  · rcases step (stateAt s k) with b | _ | s' <;> simp [Except.toOption]
  · rcases step (stateAt s N) with b | _ | s' <;> simp [Except.toOption]

instance (s : State) (N : Nat) : Decidable (HaltsAfter s N) :=
  decidable_of_iff' _ haltsAfter_iff

theorem next_of_step {s s' : State} (h : step s = .ok (some s')) : next s = s' := by
  simp only [next, h]

theorem word_eq_zero_iff {s : State} {o : Option State} (h : step s = .ok o) :
    s.word = 0 ↔ o = none := by
  rw [step_of_inside (inside_of_step h)] at h
  by_cases h0 : s.word = 0
  · rw [if_pos h0] at h
    exact ⟨fun _ => (Except.ok.inj h).symm, fun _ => h0⟩
  · rw [if_neg h0] at h
    refine ⟨fun hz => absurd hz h0, ?_⟩
    rintro rfl
    cases hd : s.decoded with
    | none => simp [hd] at h
    | some i => cases hc : complete s i <;> simp [hd, hc, Except.map] at h

namespace HaltsAfter

variable {s : State} {N : Nat}

theorem stateAt_eq (h : HaltsAfter s N) {k : Nat} (hk : N ≤ k) : stateAt s k = stateAt s N :=
  stateAt_of_word_zero ((word_eq_zero_iff h.2).mpr rfl) hk

theorem word_ne_zero_iff (h : HaltsAfter s N) {k : Nat} : (stateAt s k).word ≠ 0 ↔ k < N := by
  constructor
  · intro h0
    apply Decidable.byContradiction
    intro hn
    apply h0
    rw [h.stateAt_eq (Nat.le_of_not_lt hn)]
    exact (word_eq_zero_iff h.2).mpr rfl
  · intro hk h0
    obtain ⟨s', hs⟩ := h.1 k hk
    exact absurd ((word_eq_zero_iff hs).mp h0) nofun

theorem neverFaults (h : HaltsAfter s N) : NeverFaults s := by
  intro k
  rcases Nat.lt_or_ge k N with hk | hk
  · obtain ⟨s', hs⟩ := h.1 k hk
    exact ⟨_, hs⟩
  · exact ⟨_, h.stateAt_eq hk ▸ h.2⟩

/-- For a program that ends it is enough to look at its steps. -/
theorem fetchesSettled (h : HaltsAfter s N)
    (hc : ∀ k, k < N → ∀ i, i < 3 →
      (stateAt s (k + 1)).mem.cell (stateAt s (k + 1 + i)).cpu.pc.cellOf
        = (stateAt s k).mem.cell (stateAt s (k + 1 + i)).cpu.pc.cellOf) : FetchesSettled s := by
  intro k j hkj hj
  rcases Nat.lt_or_ge k N with hk | hk
  · obtain ⟨i, rfl⟩ : ∃ i, j = k + 1 + i := ⟨j - (k + 1), by omega⟩
    exact hc k hk i (by omega)
  · rw [h.stateAt_eq hk, h.stateAt_eq (Nat.le_succ_of_le hk)]

theorem transfersInside (h : HaltsAfter s N)
    (hc : ∀ k, k < N → InFlight.isTransfer (stateAt s k).word = true →
      ((stateAt s k).cpu.pc + 4).cellOf < s.mem.capacity) : TransfersInside s := by
  intro k hb
  exact hc k (h.word_ne_zero_iff.mp (InFlight.ne_zero_of_isTransfer hb)) hb

end HaltsAfter

/-- A load of the word 7, an addition that waits for it, a jump over a word that
is never run, a store of the sum and a word that is skipped. -/
def detour : State :=
  { cpu := .reset
    mem :=
      (((((((Memory.zeroed 9).set 0 0x01c02083 (by decide)).set 1 0x00108133 (by decide)).set 2
        0x0080006f (by decide)).set 3 0xffffffff (by decide)).set 4 0x02202023 (by decide)).set 5
        0x0000000b (by decide)).set 7 7 (by decide) }

theorem haltsAfter_detour : HaltsAfter detour 5 := by decide

theorem fetchesSettled_detour : FetchesSettled detour :=
  haltsAfter_detour.fetchesSettled (by decide)

theorem transfersInside_detour : TransfersInside detour :=
  haltsAfter_detour.transfersInside (by decide)

end Sequential

end FiveStage
