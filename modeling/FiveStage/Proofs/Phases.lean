import FiveStage.Proofs.Lockstep

/-
  Phases — how the front of the pipeline gets from one phase to the next

  What follows a phase depends on the word that is due:
    `ready`    → `ready` at the end of the program, else what the entry asks for
    `loading`  → `waiting` → what the entry asks for
    `transfer` → `held` → `resolved` → `resolved` → `ready`
  An instruction that enters asks for `transfer` if it is a branch or jump, for
  `loading` if it is a load that the next one waits for, and for `ready` otherwise.

  What is proved:
    1. `Front.of_entering` — what an entry asks for.
    2. `decode_of_step` — in every phase what has just entered is decoded.
    3. `advances_of_ready` to `advances_of_resolved` — the phases one by one.
    4. `inStep_step` — a machine in step makes its cycle and is in step after it.
    5. `exists_inStep` — so a run of any length goes through, in step.
-/

namespace FiveStage

open FiveStage.Sequential

variable {s : State} {n : Nat} {m : Machine}

theorem Front.of_entering (hf : NeverFaults s) {q : Nat} (hq : entering s n = some q)
    {slot : Option InFlight} (hs : slot.map InFlight.tag = some (tagAt s q)) :
    Front s n slot ((stateAt s q).cpu.pc + 4) false := by
  obtain ⟨h0, ht⟩ := entering_eq_some_iff.mp hq
  have hb := (begun_of_entering hq).2
  have hs' : slot.map InFlight.tag = (entering s n).map (tagAt s) := by rw [hs, hq]; rfl
  cases hx : InFlight.isTransfer (stateAt s q).word with
  | true => exact .transfer q hb ht hx hs rfl rfl
  | false =>
    obtain ⟨o, ho⟩ := hf q
    have hpc : (stateAt s q).cpu.pc + 4 = (stateAt s (begun s n)).cpu.pc := by
      rw [hb]
      exact (pc_next_of_not_transfer ho h0 hx).symm
    cases hw : waits s (q + 1) with
    | true =>
      have := entersAt_of_waits hw
      exact .loading (by rw [hb]; omega) (hb ▸ hw) hs' hpc rfl
    | false =>
      have := entersAt_of_plain hx hw
      exact .ready (by rw [hb]; omega) (hb ▸ hw) hs' hpc rfl

/-- The machine fetches, and the front gets to its next phase. -/
def Advances (s : State) (n : Nat) (m : Machine) : Prop :=
  ∃ f, m.fetching = .ok f ∧ ∀ a r, m.accessing = .ok a → m.retiring = .ok r →
    Front s (n + 1) (m.assembled f a r).slots.fetch (m.assembled f a r).cpu.pc
      (m.assembled f a r).cpu.stall

namespace InStep

/-! ## Fetching -/

theorem capacity_mem (h : InStep s n m) : m.mem.capacity = s.mem.capacity := by
  rw [h.mem, capacity_stateAt]

/-- The next word is read as in the course, though memory may be three steps
behind. -/
theorem fetch_next (h : InStep s n m) (hf : NeverFaults s) (hset : SettledAt s (begun s n)) :
    InFlight.fetch m.mem (stateAt s (begun s n)).cpu.pc = .ok (stateAt s (begun s n)).fetched := by
  obtain ⟨o, ho⟩ := hf (begun s n)
  have hin : (stateAt s (begun s n)).cpu.pc.cellOf < m.mem.capacity := by
    have := inside_of_step ho
    rwa [State.Inside, capacity_stateAt, ← h.capacity_mem] at this
  obtain ⟨hlo, hhi⟩ := begun_sub_three (s := s) n
  have hc : m.mem.cell (stateAt s (begun s n)).cpu.pc.cellOf = (stateAt s (begun s n)).word := by
    rw [h.mem]
    exact cell_of_settledAt hset hlo hhi
  rw [InFlight.fetch_of_inside hin, hc]
  rfl

/-- What is fetched behind an instruction can be fetched, whether it is kept or
not. -/
theorem fetching_behind (h : InStep s n m) (hf : NeverFaults s) (hti : TransfersInside s) {k : Nat}
    (h0 : (stateAt s k).word ≠ 0) (hpc : m.cpu.pc = (stateAt s k).cpu.pc + 4)
    (hst : m.cpu.stall = false) : ∃ f, m.fetching = .ok f := by
  have hin : ((stateAt s k).cpu.pc + 4).cellOf < s.mem.capacity := by
    cases hx : InFlight.isTransfer (stateAt s k).word with
    | true => exact hti k hx
    | false =>
      obtain ⟨o, ho⟩ := hf k
      obtain ⟨o', ho'⟩ := hf (k + 1)
      have hin := inside_of_step ho'
      rwa [State.Inside, capacity_stateAt, stateAt, pc_next_of_not_transfer ho h0 hx] at hin
  rw [Machine.fetching, hst, hpc]
  exact ⟨_, InFlight.fetch_of_inside (h.capacity_mem ▸ hin)⟩

theorem redirecting_of_plain (h : InStep s n m)
    (hp : ∀ j, entering s (n - 1) = some j → InFlight.isTransfer (stateAt s j).word = false) :
    m.redirecting = none := by
  rw [h.redirecting_eq]
  cases hj : entering s (n - 1) with
  | none => rfl
  | some j => exact target?_eq_none (hp j hj)

theorem assembled_of_due (h : InStep s n m) (hf : NeverFaults s)
    (ht : entersAt s (begun s n) ≤ n + 2)
    (hs : m.slots.fetch.map InFlight.tag = (entering s n).map (tagAt s))
    (hst : m.cpu.stall = false) {f : Option InFlight} {a : Option InFlight × Memory}
    {r : Option InFlight × Registers} (ha : m.accessing = .ok a) (hr : m.retiring = .ok r) :
    m.assembled f a r
      = { cpu := Cycle.advance (m.shifted f a.1 r.1) ⟨m.cpu.pc, false, r.2⟩
          mem := a.2
          slots := ⟨f, (entering s n).bind fun k => (stateAt s k).decoded, m.executing, a.1,
            r.1⟩ } := by
  have hp {i j : Nat} (hj : entering s i = some j) (hi : i ≤ n) (hi' : n ≤ i + 1) :
      InFlight.isTransfer (stateAt s j).word = false := by
    obtain ⟨h0, hti⟩ := entering_eq_some_iff.mp hj
    have hq : j < begun s n := lt_begun_iff.mpr ⟨h0, by omega⟩
    exact not_transfer_of_entering hj hq (by omega)
  have hd : m.redirecting = none :=
    h.redirecting_of_plain fun j hj => hp hj (Nat.sub_le n 1) (by omega)
  rw [h.assembled_of_entering hf ha hr hs fun k hk => hp hk (Nat.le_refl n) (by omega),
    Machine.released_of_fetching hd hst]

/-- An instruction that has to wait is decoded, and found to read what is loaded. -/
theorem decoding_of_waiting (h : InStep s n m) (ht : entersAt s (begun s n) = n + 1)
    (hw : waits s (begun s n) = true)
    (hs : m.slots.fetch.map InFlight.tag = some (tagAt s (begun s n))) :
    ∃ i, m.decoding = some i ∧ ∀ f (a : Option InFlight × Memory) (r : Option InFlight × Registers),
      Hazard.awaitsLoad (m.shifted f a.1 r.1) i = true := by
  obtain ⟨k, hk, -, hload⟩ := of_begun_waits hw ht
  obtain ⟨i, hi⟩ := Option.isSome_iff_exists.mp
    ((isSome_decoding hs).trans (isSupported_of_waits hw))
  refine ⟨i, hi, fun f a r => ?_⟩
  rw [InFlight.awaitsLoad_eq]
  refine (h.awaits_executing hload hs hi).trans ?_
  rw [hk] at hw ⊢
  exact hw

/-- In every phase a cycle decodes what has just entered and nothing else. -/
theorem decode_of_step (h : InStep s n m) (hf : NeverFaults s) {m' : Machine}
    (hstep : m.step = .ok m') :
    m'.slots.decode = (entering s n).bind fun k => (stateAt s k).decoded := by
  obtain ⟨f, a, r, -, ha, hr, rfl⟩ := Machine.step_eq_ok_iff.mp hstep
  have hheld {k : Nat} (hb : InFlight.isTransfer (stateAt s k).word = true)
      (hlo : entersAt s k < n) (hhi : n < entersAt s k + 5) (hs : m.slots.fetch = none) :
      m.slots.fetch.map InFlight.tag = (entering s n).map (tagAt s) := by
    rw [hs, entering_of_transfer hb hlo hhi]
    rfl
  cases h.front with
  | ready ht hw hs hpc hst => exact h.assembled_decode_of_entering hf ha hr hs
  | loading ht hw hs hpc hst => exact h.assembled_decode_of_entering hf ha hr hs
  | waiting ht hw hs hpc hst =>
    obtain ⟨-, -, hnone, -⟩ := of_begun_waits hw ht
    obtain ⟨i, hi, hwait⟩ := h.decoding_of_waiting ht hw hs
    rw [Machine.assembled_decode_of_replay hi (hwait f a r), hnone]
    rfl
  | transfer k hk ht hb hs hpc hst =>
    have hent : entering s n = some k :=
      entering_eq_some_iff.mpr ⟨InFlight.ne_zero_of_isTransfer hb, ht⟩
    exact h.assembled_decode_of_entering hf ha hr (by rw [hs, hent]; rfl)
  | held k hk ht hb hs hpc hst =>
    exact h.assembled_decode_of_entering hf ha hr (hheld hb (by omega) (by omega) hs)
  | resolved k hk hlo hhi hb hs hpc hst =>
    exact h.assembled_decode_of_entering hf ha hr (hheld hb (by omega) (by omega) hs)

/-! ## The phases -/

/-- The next instruction is fetched and enters, or there is none. -/
theorem advances_of_ready (h : InStep s n m) (hf : NeverFaults s) (hset : SettledAt s (begun s n))
    (ht : entersAt s (begun s n) ≤ n + 1) (hw : waits s (begun s n) = false)
    (hs : m.slots.fetch.map InFlight.tag = (entering s n).map (tagAt s))
    (hpc : m.cpu.pc = (stateAt s (begun s n)).cpu.pc) (hst : m.cpu.stall = false) :
    Advances s n m := by
  refine ⟨(stateAt s (begun s n)).fetched, ?_, fun a r ha hr => ?_⟩
  · rw [Machine.fetching, hst, hpc]
    exact h.fetch_next hf hset
  rw [h.assembled_of_due hf (Nat.le_succ_of_le ht) hs hst ha hr]
  by_cases h0 : (stateAt s (begun s n)).word = 0
  · -- the program has ended: a zero word is read and nothing enters
    have hn : ¬(entersAt s (begun s n) = n + 1 ∧ (stateAt s (begun s n)).word ≠ 0) :=
      fun hn => hn.2 h0
    have he : entering s (n + 1) = none := by rw [entering, if_neg hn]
    have hb : begun s (n + 1) = begun s n := begun_of_entering_none he
    rw [State.fetched, if_pos h0, Machine.advance_of_fetch_none rfl]
    exact .ready (by rw [hb]; omega) (hb ▸ hw) (by rw [he]; rfl) (by rw [hb]; exact hpc) rfl
  · -- it has not entered yet and is due by the next cycle, so it enters in it
    have hlt : n < entersAt s (begun s n) := (begun_spec n).2 h0
    have he : entering s (n + 1) = some (begun s n) :=
      entering_eq_some_iff.mpr ⟨h0, by omega⟩
    rw [State.fetched, if_neg h0, Machine.advance_of_fetch_some rfl hpc.symm rfl]
    show Front s (n + 1) _ (m.cpu.pc + 4) false
    rw [hpc]
    exact .of_entering hf he rfl

/-- The instruction that will have to wait is fetched all the same. -/
theorem advances_of_loading (h : InStep s n m) (hf : NeverFaults s)
    (hset : SettledAt s (begun s n))
    (ht : entersAt s (begun s n) = n + 2) (hw : waits s (begun s n) = true)
    (hs : m.slots.fetch.map InFlight.tag = (entering s n).map (tagAt s))
    (hpc : m.cpu.pc = (stateAt s (begun s n)).cpu.pc) (hst : m.cpu.stall = false) :
    Advances s n m := by
  refine ⟨(stateAt s (begun s n)).fetched, ?_, fun a r ha hr => ?_⟩
  · rw [Machine.fetching, hst, hpc]
    exact h.fetch_next hf hset
  have h0 : (stateAt s (begun s n)).word ≠ 0 := word_ne_zero_of_waits hw
  have hb : begun s (n + 1) = begun s n := by
    have hn : ¬(entersAt s (begun s n) = n + 1 ∧ (stateAt s (begun s n)).word ≠ 0) := by omega
    rw [begun, if_neg hn]
  rw [h.assembled_of_due hf (Nat.le_of_eq ht) hs hst ha hr, State.fetched, if_neg h0,
    Machine.advance_of_fetch_some rfl hpc.symm rfl]
  refine .waiting (hb ▸ ht) (hb ▸ hw) (by rw [hb]; rfl) ?_ rfl
  rw [hb, ← hpc]

/-- The instruction that has to wait goes back and enters a cycle later. -/
theorem advances_of_waiting (h : InStep s n m) (hf : NeverFaults s) (hti : TransfersInside s)
    (ht : entersAt s (begun s n) = n + 1) (hw : waits s (begun s n) = true)
    (hs : m.slots.fetch.map InFlight.tag = some (tagAt s (begun s n)))
    (hpc : m.cpu.pc = (stateAt s (begun s n)).cpu.pc + 4) (hst : m.cpu.stall = false) :
    Advances s n m := by
  have h0 := word_ne_zero_of_waits hw
  obtain ⟨f, hfet⟩ := h.fetching_behind hf hti h0 hpc hst
  refine ⟨f, hfet, fun a r ha hr => ?_⟩
  have hq : entering s (n + 1) = some (begun s n) := entering_eq_some_iff.mpr ⟨h0, ht⟩
  obtain ⟨i, hi, hwait⟩ := h.decoding_of_waiting ht hw hs
  -- a branch or jump that goes back releases the stall it would cause
  have hstall : (if i.isControlFlow then false else (m.released r).stall) = false := by
    simp [Machine.released, hst]
  have htag := tag_of_decoding hs hi
  have hback : (some { i with stage := .fetch }).map InFlight.tag = some (tagAt s (begun s n)) :=
    congrArg some htag
  have hfront := Front.of_entering hf hq hback
  rw [← (Prod.mk.inj htag).2] at hfront
  rw [Machine.assembled_of_replay hi (hwait f a r), hstall,
    Machine.advance_of_fetch_some rfl rfl rfl]
  exact hfront

theorem advances_of_transfer (h : InStep s n m) (hf : NeverFaults s) (hti : TransfersInside s)
    {k : Nat} (hk : begun s n = k + 1) (ht : entersAt s k = n)
    (hb : InFlight.isTransfer (stateAt s k).word = true)
    (hs : m.slots.fetch.map InFlight.tag = some (tagAt s k))
    (hpc : m.cpu.pc = (stateAt s k).cpu.pc + 4) (hst : m.cpu.stall = false) : Advances s n m := by
  have hsup := InFlight.isSupported_of_isTransfer hb
  have h0 := InFlight.ne_zero_of_isSupported hsup
  obtain ⟨f, hfet⟩ := h.fetching_behind hf hti h0 hpc hst
  refine ⟨f, hfet, fun a r ha hr => ?_⟩
  have hent : entering s n = some k := entering_eq_some_iff.mpr ⟨h0, ht⟩
  have hnone : entering s (n + 1) = none := entering_of_transfer hb (by omega) (by omega)
  obtain ⟨i, hi⟩ := Option.isSome_iff_exists.mp ((isSome_decoding hs).trans hsup)
  obtain ⟨hw, -⟩ := h.decode_of_entering hf ha hr hent hs hi (f := f)
  have hd : m.redirecting = none :=
    h.redirecting_of_plain fun j hj => (of_entering_pred hent hj).2.1
  rw [Machine.assembled_of_transfer hi ((isControlFlow_of_decoding hs hi).trans hb) hw,
    Machine.released_of_fetching hd hst]
  exact .held k (begun_of_entering_none hnone ▸ hk) (by omega) hb rfl hpc rfl

theorem assembled_of_stalled (h : InStep s n m) (hf : NeverFaults s) (he : entering s n = none)
    (hs : m.slots.fetch = none) (hst : m.cpu.stall = true) {a : Option InFlight × Memory}
    {r : Option InFlight × Registers} (ha : m.accessing = .ok a) (hr : m.retiring = .ok r) :
    m.assembled none a r
      = { cpu := ⟨m.redirecting.getD m.cpu.pc, !Hazard.controlFlowIn r.1, r.2⟩
          mem := a.2
          slots := ⟨none, none, m.executing, a.1, r.1⟩ } := by
  have hs' : m.slots.fetch.map InFlight.tag = (entering s n).map (tagAt s) := by rw [hs, he]; rfl
  rw [h.assembled_of_entering hf ha hr hs' (by rw [he]; exact nofun),
    Machine.advance_of_fetch_none rfl, he, Machine.released, hst]
  rfl

/-- What is written back right before a branch or jump is none itself. -/
theorem not_released (h : InStep s n m) (hf : NeverFaults s)
    {r : Option InFlight × Registers} (hr : m.retiring = .ok r) {k : Nat}
    (hlo : n - 3 < entersAt s k) (hhi : entersAt s k < n - 3 + 5) :
    Hazard.controlFlowIn r.1 = false := by
  rw [h.controlFlowIn_retired hf hr]
  cases hj : entering s (n - 3) with
  | none => rfl
  | some j =>
    -- a branch or jump so shortly ahead would have kept this one away
    obtain ⟨-, hjt⟩ := entering_eq_some_iff.mp hj
    have hjk : j < k := lt_of_entersAt_lt (s := s) (by omega)
    exact not_transfer_of_entering hj hjk hhi

/-- The branch or jump executes, and the program counter goes where it leads. -/
theorem advances_of_held (h : InStep s n m) (hf : NeverFaults s) {k : Nat}
    (hk : begun s n = k + 1) (ht : entersAt s k + 1 = n)
    (hb : InFlight.isTransfer (stateAt s k).word = true) (hs : m.slots.fetch = none)
    (hpc : m.cpu.pc = (stateAt s k).cpu.pc + 4) (hst : m.cpu.stall = true) : Advances s n m := by
  refine ⟨none, by rw [Machine.fetching, hst]; rfl, fun a r ha hr => ?_⟩
  have h0 := InFlight.ne_zero_of_isTransfer hb
  have he : entering s n = none := entering_of_transfer hb (by omega) (by omega)
  have he' : entering s (n + 1) = none := entering_of_transfer hb (by omega) (by omega)
  have hent : entering s (n - 1) = some k := entering_eq_some_iff.mpr ⟨h0, by omega⟩
  have hpos := entersAt_pos (s := s) k
  have hcf := h.not_released hf hr (k := k) (by omega) (by omega)
  obtain ⟨o, ho⟩ := hf k
  rw [h.assembled_of_stalled hf he hs hst ha hr, hcf, h.redirecting_eq, hent, hpc,
    Option.bind_some, ← pc_next ho h0]
  exact .resolved k (begun_of_entering_none he' ▸ hk) (by omega) (by omega) hb rfl rfl rfl

/-- The stall lasts until the branch or jump has been written back. -/
theorem advances_of_resolved (h : InStep s n m) (hf : NeverFaults s) {k : Nat}
    (hk : begun s n = k + 1) (hlo : entersAt s k + 2 ≤ n) (hhi : n ≤ entersAt s k + 3)
    (hb : InFlight.isTransfer (stateAt s k).word = true) (hs : m.slots.fetch = none)
    (hpc : m.cpu.pc = (stateAt s (k + 1)).cpu.pc) (hst : m.cpu.stall = true) :
    Advances s n m := by
  refine ⟨none, by rw [Machine.fetching, hst]; rfl, fun a r ha hr => ?_⟩
  have h0 := InFlight.ne_zero_of_isTransfer hb
  obtain ⟨h5, hplain⟩ := entersAt_of_transfer hb
  have he : entering s n = none := entering_of_transfer hb (by omega) (by omega)
  have he' : entering s (n + 1) = none := entering_of_transfer hb (by omega) (by omega)
  have hk' : begun s (n + 1) = k + 1 := (begun_of_entering_none he').trans hk
  have hd : m.redirecting = none := by
    rw [h.redirecting_eq, entering_of_transfer hb (by omega) (by omega)]
    rfl
  rw [h.assembled_of_stalled hf he hs hst ha hr, hd, Option.getD_none]
  rcases Nat.eq_or_lt_of_le hhi with rfl | hlt
  · -- the branch or jump is written back in this cycle, which ends the stall
    have hent : entering s (entersAt s k + 3 - 3) = some k :=
      entering_eq_some_iff.mpr ⟨h0, (Nat.add_sub_cancel _ _).symm⟩
    have hcf : Hazard.controlFlowIn r.1 = true := by
      rw [h.controlFlowIn_retired hf hr, hent]
      exact hb
    rw [hcf]
    exact .ready (by rw [hk']; omega) (hk' ▸ hplain) (by rw [he']; rfl) (hk' ▸ hpc) rfl
  · have hpos := entersAt_pos (s := s) k
    rw [h.not_released hf hr (k := k) (by omega) (by omega)]
    exact .resolved k hk' (by omega) (by omega) hb rfl hpc rfl

/-! ## Cycles and runs -/

theorem advances (h : InStep s n m) (hf : NeverFaults s) (hset : SettledAt s (begun s n))
    (hti : TransfersInside s) : Advances s n m := by
  cases h.front with
  | ready ht hw hs hpc hst => exact h.advances_of_ready hf hset ht hw hs hpc hst
  | loading ht hw hs hpc hst => exact h.advances_of_loading hf hset ht hw hs hpc hst
  | waiting ht hw hs hpc hst => exact h.advances_of_waiting hf hti ht hw hs hpc hst
  | transfer k hk ht hb hs hpc hst => exact h.advances_of_transfer hf hti hk ht hb hs hpc hst
  | held k hk ht hb hs hpc hst => exact h.advances_of_held hf hk ht hb hs hpc hst
  | resolved k hk hlo hhi hb hs hpc hst => exact h.advances_of_resolved hf hk hlo hhi hb hs hpc hst

end InStep

theorem inStep_step (h : InStep s n m) (hf : NeverFaults s) (hset : SettledAt s (begun s n))
    (hti : TransfersInside s) : ∃ m', m.step = .ok m' ∧ InStep s (n + 1) m' := by
  obtain ⟨f, hfet, hfront⟩ := h.advances hf hset hti
  have ha := h.accessing_eq hf
  have hr := h.retiring_eq hf
  obtain ⟨hexe, hmem, hwb, hregs⟩ := Machine.assembled_back m f _ _
  have hstep := Machine.step_eq_ok_iff.mpr ⟨f, _, _, hfet, ha, hr, rfl⟩
  exact ⟨_, hstep,
    { front := hfront _ _ ha hr
      regs := hregs
      mem := Machine.assembled_mem
      decode := h.decode_of_step hf hstep
      execute := hexe.trans h.executing_eq
      memory := hmem
      writeBack := hwb }⟩

/-- A run goes through and stays in step as long as it fetches settled words. -/
theorem exists_inStep_of_settledAt (hs : s.cpu.stall = false) (hf : NeverFaults s)
    (hti : TransfersInside s) {n : Nat} (hset : ∀ i, i < n → SettledAt s (begun s i)) :
    ∃ m, (Machine.start s).after n = .ok m ∧ InStep s n m := by
  induction n with
  | zero => exact ⟨_, rfl, inStep_start hs⟩
  | succ n ih =>
    obtain ⟨m, hm, hin⟩ := ih fun i hi => hset i (Nat.lt_succ_of_lt hi)
    obtain ⟨m', hm', hin'⟩ := inStep_step hin hf (hset n (Nat.lt_succ_self n)) hti
    exact ⟨m', (Machine.after_succ hm).trans hm', hin'⟩

theorem exists_inStep (hs : s.cpu.stall = false) (hf : NeverFaults s) (hset : FetchesSettled s)
    (hti : TransfersInside s) (n : Nat) :
    ∃ m, (Machine.start s).after n = .ok m ∧ InStep s n m :=
  exists_inStep_of_settledAt hs hf hti fun i _ => hset.settledAt (begun s i)

end FiveStage
