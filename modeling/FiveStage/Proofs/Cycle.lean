import FiveStage.Machine

/-
  Cycles — a clock cycle as a whole, from what its stages bring

  Three stages of a cycle can fault: fetching, memory access and write-back.
  Each of the five is a function of the machine as it stood at the start of the
  cycle, because none of them writes what a later one reads. So a cycle is three
  answers and one assembly.

  What is proved:
    1. `step_eq_ok_iff` — a cycle goes through exactly when the three stages
       answer, and the machine after it is `assembled` from their answers.
    2. `assembled_of_bubble`, `assembled_of_replay`, `assembled_of_transfer`,
       `assembled_of_plain` — what the hazards make of the machine: nothing was
       decoded, the decoded instruction goes back, it is a branch or jump, or it
       stays with its operands supplied and nothing else happens.
    3. `assembled_back`, `assembled_decode` — what holds in all four cases.

  `Reachable` machines have started on a state without a stall and made some
  cycles; `after` counts the cycles.
-/

namespace FiveStage

namespace Hazard

/-! ## What the hazards make of the new slots -/

variable {slots : Slots} {cpu : Cpu} {i : InFlight}

theorem resolve_of_bubble (hd : slots.decode = none) :
    resolve slots cpu = (slots, release slots cpu) := by
  have hh : hold slots (release slots cpu) = (slots, release slots cpu) := by
    simp [hold, controlFlowIn, hd]
  simp only [resolve, hh, hd]

theorem hold_of_transfer (hd : slots.decode = some i) (hi : i.isControlFlow = true) :
    hold slots cpu = ({ slots with fetch := none }, { cpu with stall := true }) := by
  simp [hold, controlFlowIn, hd, hi]

theorem hold_of_plain (hd : slots.decode = some i) (hi : i.isControlFlow = false) :
    hold slots cpu = (slots, cpu) := by
  simp [hold, controlFlowIn, hd, hi]

/-- An instruction that is sent back takes the first slot, whatever was there,
and leaves no stall of its own behind. -/
theorem resolve_of_replay (hd : slots.decode = some i) (hw : awaitsLoad slots i = true) :
    resolve slots cpu
      = (replay slots i, { release slots cpu with
          pc := i.pc
          stall := if i.isControlFlow then false else (release slots cpu).stall }) := by
  cases hi : i.isControlFlow with
  | true =>
    -- holding back what was fetched does not change what is ahead
    have hw' : awaitsLoad { slots with fetch := none, decode := some i } i = true := hw
    simp only [resolve, hold_of_transfer hd hi, hd, hw', if_true, hi, replay]
  | false =>
    simp only [resolve, hold_of_plain hd hi, hd, hw, if_true, hi, Bool.false_eq_true, if_false]

theorem resolve_of_transfer (hd : slots.decode = some i) (hi : i.isControlFlow = true)
    (hw : awaitsLoad slots i = false) :
    resolve slots cpu
      = ({ slots with fetch := none, decode := some (forward slots i) },
         { release slots cpu with stall := true }) := by
  have hw' : awaitsLoad { slots with fetch := none, decode := some i } i = false := hw
  simp only [resolve, hold_of_transfer hd hi, hd, hw', Bool.false_eq_true, if_false]
  rfl

theorem resolve_of_plain (hd : slots.decode = some i) (hi : i.isControlFlow = false)
    (hw : awaitsLoad slots i = false) :
    resolve slots cpu
      = ({ slots with decode := some (forward slots i) }, release slots cpu) := by
  simp only [resolve, hold_of_plain hd hi, hd, hw, Bool.false_eq_true, if_false]

end Hazard

namespace Machine

/-- What fetching brings: nothing during a stall. -/
def fetching (m : Machine) : Except Fault (Option InFlight) :=
  if m.cpu.stall then .ok none else InFlight.fetch m.mem m.cpu.pc

/-- What decoding brings. -/
def decoding (m : Machine) : Option InFlight :=
  m.slots.fetch.bind (·.decode? m.cpu.regs)

/-- What execution brings. -/
def executing (m : Machine) : Option InFlight :=
  m.slots.decode.map (·.execute.1)

/-- Where execution moves the program counter. -/
def redirecting (m : Machine) : Option Word :=
  m.slots.decode.bind (·.execute.2)

/-- What memory access brings, beside the memory after it. -/
def accessing (m : Machine) : Except Fault (Option InFlight × Memory) :=
  match m.slots.execute with
  | none => .ok (none, m.mem)
  | some i => (i.accessMemory m.mem).map fun a => (some a.1, a.2)

/-- What write-back brings, beside the registers after it. -/
def retiring (m : Machine) : Except Fault (Option InFlight × Registers) :=
  match m.slots.memory with
  | none => .ok (none, m.cpu.regs)
  | some i => (i.writeBack m.cpu.regs).map fun a => (some a.1, a.2)

/-- The slots right after the stages, before hazards are resolved. -/
def shifted (m : Machine) (f a r : Option InFlight) : Slots :=
  ⟨f, m.decoding, m.executing, a, r⟩

/-- The machine after a cycle whose stages brought `f`, `a` and `r`. -/
def assembled (m : Machine) (f : Option InFlight) (a : Option InFlight × Memory)
    (r : Option InFlight × Registers) : Machine :=
  Cycle.settle
    { cpu := { m.cpu with regs := r.2 }
      mem := a.2
      next := m.shifted f a.1 r.1
      redirect := m.redirecting }

/-! ## The stages one by one -/

theorem fetch_start (m : Machine) :
    (Cycle.start m.cpu m.mem).fetch
      = m.fetching.map fun f =>
          { Cycle.start m.cpu m.mem with next := { Slots.empty with fetch := f } } := by
  cases hs : m.cpu.stall with
  | true => simp [Cycle.fetch, Cycle.start, fetching, hs, Except.map]; rfl
  | false =>
    simp only [Cycle.fetch, Cycle.start, fetching, hs, Bool.false_eq_true, if_false]
    cases InFlight.fetch m.mem m.cpu.pc <;> rfl

theorem memory_of_mem {m : Machine} {c : Cycle} (hm : c.mem = m.mem) :
    c.memory m.slots
      = m.accessing.map fun a => { c with mem := a.2, next := { c.next with memory := a.1 } } := by
  unfold Cycle.memory accessing
  cases m.slots.execute with
  | none => simp [Except.map, hm.symm]
  | some i =>
    dsimp only
    rw [hm]
    cases i.accessMemory m.mem <;> rfl

theorem writeBack_of_regs {m : Machine} {c : Cycle} (hr : c.cpu.regs = m.cpu.regs) :
    c.writeBack m.slots
      = m.retiring.map fun r =>
          { c with
            cpu := { c.cpu with regs := r.2 }
            next := { c.next with writeBack := r.1 } } := by
  unfold Cycle.writeBack retiring
  cases m.slots.memory with
  | none => simp [Except.map, hr.symm]
  | some i =>
    dsimp only
    rw [hr]
    cases i.writeBack m.cpu.regs <;> rfl

theorem execute_of_empty {m : Machine} {c : Cycle} (he : c.next.execute = none) :
    c.execute m.slots
      = { c with next := { c.next with execute := m.executing }, redirect := m.redirecting } := by
  unfold Cycle.execute executing redirecting
  cases m.slots.decode with
  | none =>
    dsimp only [Option.map_none, Option.bind_none]
    rw [← he]
  | some i => rfl

/-! ## The cycle -/

theorem step_eq_ok_iff {m m' : Machine} :
    m.step = .ok m' ↔ ∃ f a r, m.fetching = .ok f ∧ m.accessing = .ok a ∧ m.retiring = .ok r ∧
      m' = m.assembled f a r := by
  simp only [step, stepIn, Stage.all, Cycle.perform, Cycle.act, fetch_start]
  -- the stages run one after the other; where one faults, neither side holds
  cases hf : m.fetching with
  | error e => simp [Except.map]
  | ok f =>
    simp only [Except.map]
    rw [execute_of_empty rfl, memory_of_mem rfl]
    cases ha : m.accessing with
    | error e => simp [Except.map]
    | ok a =>
      simp only [Except.map]
      rw [writeBack_of_regs rfl]
      cases hr : m.retiring with
      | error e => simp [Except.map]
      | ok r =>
        simp [Except.map, assembled, shifted, decoding, Cycle.decode, Cycle.start, Slots.empty,
          eq_comm]

/-! ## The assembled machine -/

variable {m : Machine} {f : Option InFlight} {a : Option InFlight × Memory}
  {r : Option InFlight × Registers} {i : InFlight}

/-- The cpu once the stages have run: the program counter redirected, the stall
released by a branch or jump that has been written back. -/
def released (m : Machine) (r : Option InFlight × Registers) : Cpu :=
  ⟨m.redirecting.getD m.cpu.pc, m.cpu.stall && !Hazard.controlFlowIn r.1, r.2⟩

theorem release_shifted (m : Machine) (f a : Option InFlight) (r : Option InFlight × Registers) :
    Hazard.release (m.shifted f a r.1) ⟨m.redirecting.getD m.cpu.pc, m.cpu.stall, r.2⟩
      = m.released r := by
  unfold Hazard.release released
  cases hc : Hazard.controlFlowIn r.1 <;> simp [shifted, hc]

theorem assembled_of_bubble (hd : m.decoding = none) :
    m.assembled f a r
      = { cpu := Cycle.advance (m.shifted f a.1 r.1) (m.released r)
          mem := a.2
          slots := m.shifted f a.1 r.1 } := by
  have hs : (m.shifted f a.1 r.1).decode = none := hd
  simp only [assembled, Cycle.settle, Hazard.resolve_of_bubble hs, release_shifted]

/-- The decoded instruction goes back to the first slot, and the program counter
behind it. -/
theorem assembled_of_replay (hd : m.decoding = some i)
    (hw : Hazard.awaitsLoad (m.shifted f a.1 r.1) i = true) :
    m.assembled f a r
      = { cpu := Cycle.advance (Hazard.replay (m.shifted f a.1 r.1) i)
            ⟨i.pc, if i.isControlFlow then false else (m.released r).stall, r.2⟩
          mem := a.2
          slots := ⟨some { i with stage := .fetch }, none, m.executing, a.1, r.1⟩ } := by
  have hd' : (m.shifted f a.1 r.1).decode = some i := hd
  simp only [assembled, Cycle.settle, Hazard.resolve_of_replay hd' hw, release_shifted]
  rfl

theorem assembled_of_transfer (hd : m.decoding = some i) (hi : i.isControlFlow = true)
    (hw : Hazard.awaitsLoad (m.shifted f a.1 r.1) i = false) :
    m.assembled f a r
      = { cpu := { m.released r with stall := true }
          mem := a.2
          slots := ⟨none, some (Hazard.forward (m.shifted f a.1 r.1) i), m.executing, a.1,
            r.1⟩ } := by
  have hd' : (m.shifted f a.1 r.1).decode = some i := hd
  simp only [assembled, Cycle.settle, Hazard.resolve_of_transfer hd' hi hw, release_shifted]
  simp [Cycle.advance, shifted]

theorem assembled_of_plain (hd : m.decoding = some i) (hi : i.isControlFlow = false)
    (hw : Hazard.awaitsLoad (m.shifted f a.1 r.1) i = false) :
    m.assembled f a r
      = { cpu := Cycle.advance (m.shifted f a.1 r.1) (m.released r)
          mem := a.2
          slots := ⟨f, some (Hazard.forward (m.shifted f a.1 r.1) i), m.executing, a.1, r.1⟩ } := by
  have hd' : (m.shifted f a.1 r.1).decode = some i := hd
  simp only [assembled, Cycle.settle, Hazard.resolve_of_plain hd' hi hw, release_shifted]
  simp [Cycle.advance, shifted]

theorem released_of_fetching (hd : m.redirecting = none) (hs : m.cpu.stall = false) :
    m.released r = ⟨m.cpu.pc, false, r.2⟩ := by
  rw [released, hd, hs]
  rfl

theorem advance_of_fetch_none {slots : Slots} {cpu : Cpu} (hs : slots.fetch = none) :
    Cycle.advance slots cpu = cpu := by
  simp [Cycle.advance, hs]

theorem advance_of_fetch_some {slots : Slots} {cpu : Cpu} {g : InFlight} (hs : slots.fetch = some g)
    (hg : g.pc = cpu.pc) (hst : cpu.stall = false) :
    Cycle.advance slots cpu = { cpu with pc := cpu.pc + 4 } := by
  simp [Cycle.advance, hs, hg, hst]

theorem advance_regs (slots : Slots) (cpu : Cpu) : (Cycle.advance slots cpu).regs = cpu.regs := by
  unfold Cycle.advance
  split <;> rfl

theorem advance_stall (slots : Slots) (cpu : Cpu) :
    (Cycle.advance slots cpu).stall = cpu.stall := by
  unfold Cycle.advance
  split <;> rfl

theorem assembled_mem : (m.assembled f a r).mem = a.2 := rfl

/-- Hazards concern the first two slots and the front of the pipeline only. -/
theorem assembled_back (m : Machine) (f : Option InFlight) (a : Option InFlight × Memory)
    (r : Option InFlight × Registers) :
    (m.assembled f a r).slots.execute = m.executing ∧ (m.assembled f a r).slots.memory = a.1 ∧
      (m.assembled f a r).slots.writeBack = r.1 ∧ (m.assembled f a r).cpu.regs = r.2 := by
  cases hd : m.decoding with
  | none =>
    rw [assembled_of_bubble hd]
    exact ⟨rfl, rfl, rfl, advance_regs _ _⟩
  | some i =>
    cases hw : Hazard.awaitsLoad (m.shifted f a.1 r.1) i with
    | true =>
      rw [assembled_of_replay hd hw]
      exact ⟨rfl, rfl, rfl, advance_regs _ _⟩
    | false =>
      cases hi : i.isControlFlow with
      | true =>
        rw [assembled_of_transfer hd hi hw]
        exact ⟨rfl, rfl, rfl, rfl⟩
      | false =>
        rw [assembled_of_plain hd hi hw]
        exact ⟨rfl, rfl, rfl, advance_regs _ _⟩

theorem assembled_decode_of_none (hd : m.decoding = none) :
    (m.assembled f a r).slots.decode = none := by
  rw [assembled_of_bubble hd]
  exact hd

theorem assembled_decode_of_replay (hd : m.decoding = some i)
    (hw : Hazard.awaitsLoad (m.shifted f a.1 r.1) i = true) :
    (m.assembled f a r).slots.decode = none := by
  rw [assembled_of_replay hd hw]

theorem assembled_decode_of_kept (hd : m.decoding = some i)
    (hw : Hazard.awaitsLoad (m.shifted f a.1 r.1) i = false) :
    (m.assembled f a r).slots.decode = some (Hazard.forward (m.shifted f a.1 r.1) i) := by
  cases hi : i.isControlFlow with
  | true => rw [assembled_of_transfer hd hi hw]
  | false => rw [assembled_of_plain hd hi hw]

/-- An instruction that stays decoded waits for no load, and has its operands
supplied. -/
theorem assembled_decode {d : InFlight} (h : (m.assembled f a r).slots.decode = some d) :
    ∃ i, m.decoding = some i ∧ Hazard.awaitsLoad (m.shifted f a.1 r.1) i = false ∧
      d = Hazard.forward (m.shifted f a.1 r.1) i := by
  cases hd : m.decoding with
  | none => exact absurd ((assembled_decode_of_none hd).symm.trans h) nofun
  | some i =>
    cases hw : Hazard.awaitsLoad (m.shifted f a.1 r.1) i with
    | true => exact absurd ((assembled_decode_of_replay hd hw).symm.trans h) nofun
    | false =>
      exact ⟨i, rfl, hw, Option.some.inj (h.symm.trans (assembled_decode_of_kept hd hw))⟩

/-! ## Machines on their way -/

/-- The machine after so many cycles. -/
def after (m : Machine) : Nat → Except (Breakdown Machine) Machine
  | 0 => .ok m
  | n + 1 =>
    match m.after n with
    | .ok m' => m'.step
    | .error b => .error b

/-- A machine that can be met on the way: it has started on some state without a
stall, and every cycle since has gone through. -/
inductive Reachable : Machine → Prop
  | start {s : State} (h : s.cpu.stall = false) : Reachable (start s)
  | step {m m' : Machine} (hm : Reachable m) (h : m.step = .ok m') : Reachable m'

theorem after_succ {m m' : Machine} {n : Nat} (h : m.after n = .ok m') :
    m.after (n + 1) = m'.step := by
  simp only [after, h]

theorem exists_of_after_succ {m m' : Machine} {n : Nat} (h : m.after (n + 1) = .ok m') :
    ∃ m'', m.after n = .ok m'' ∧ m''.step = .ok m' := by
  cases hn : m.after n with
  | error b => simp [after, hn] at h
  | ok m'' => exact ⟨m'', rfl, (after_succ hn).symm.trans h⟩

/-- A machine that is met after so many cycles, found by running. -/
theorem exists_of_after {m : Machine} {n : Nat} {p : Machine → Bool}
    (h : (m.after n).toOption.any p = true) : ∃ m', m.after n = .ok m' ∧ p m' = true := by
  cases hm : m.after n with
  | error b => simp [hm, Except.toOption] at h
  | ok m' => exact ⟨m', rfl, by simpa [hm, Except.toOption] using h⟩

/-- The same, with the cycle that follows. -/
theorem exists_step_after {m : Machine} {n : Nat} {p : Machine → Bool}
    (h : (m.after n).toOption.any (fun m => p m && m.step.toOption.isSome) = true) :
    ∃ m₁ m₂, m.after n = .ok m₁ ∧ m₁.step = .ok m₂ ∧ p m₁ = true := by
  obtain ⟨m₁, hn, hp⟩ := exists_of_after h
  rw [Bool.and_eq_true] at hp
  cases hs : m₁.step with
  | error b => simp [hs, Except.toOption] at hp
  | ok m₂ => exact ⟨m₁, m₂, hn, hs, hp.1⟩

theorem Reachable.after {m m' : Machine} (hm : Reachable m) {n : Nat} (h : m.after n = .ok m') :
    Reachable m' := by
  induction n generalizing m' with
  | zero => exact Except.ok.inj h ▸ hm
  | succ n ih =>
    obtain ⟨m'', hn, hs⟩ := exists_of_after_succ h
    exact .step (ih hn) hs

theorem reachable_of_after {s : State} (hs : s.cpu.stall = false) {n : Nat} {m : Machine}
    (h : (start s).after n = .ok m) : Reachable m :=
  (Reachable.start hs).after h

end Machine

end FiveStage
