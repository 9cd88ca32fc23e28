import FiveStage.Proofs.Stages

/-
  Passage — an instruction moves on from slot to slot

  Behind the first two slots nothing is ever dropped, held or reordered: a cycle
  takes the occupant of a slot to the next one and changes what it is about to do,
  not what it is. So the occupants of the later slots are told by those of the
  earlier ones a cycle before.

  What is proved:
    1. `at_succ_of_step` — what a slot behind the second holds after a cycle is
       what the slot before it has held, up to what execution and memory access
       have added.
    2. `decode_of_step` — the second slot holds the decoding of what the first
       has held.
    3. `isDecoded_of_reachable`, `executed_of_reachable` — on every machine that
       can be met on the way the second slot holds a decoded record, and the third
       one that has been decoded and executed.
-/

namespace FiveStage

/-- How many stages come before. -/
def Stage.number : Stage → Nat
  | .fetch => 0
  | .decode => 1
  | .execute => 2
  | .memory => 3
  | .writeBack => 4

theorem Stage.number_inj {x y : Stage} (h : x.number = y.number) : x = y := by
  cases x <;> cases y <;> simp_all [number]

theorem Stage.exists_pred {y : Stage} (h : 0 < y.number) : ∃ x : Stage, y.number = x.number + 1 := by
  cases y with
  | fetch => exact absurd h (Nat.lt_irrefl 0)
  | decode => exact ⟨.fetch, rfl⟩
  | execute => exact ⟨.decode, rfl⟩
  | memory => exact ⟨.execute, rfl⟩
  | writeBack => exact ⟨.memory, rfl⟩

namespace InFlight

theorem exists_fetched_of_fetch {mem : Memory} {pc : Word} {g : InFlight}
    (h : fetch mem pc = .ok (some g)) : ∃ raw, g = fetched raw pc := by
  unfold fetch at h
  cases hl : mem.load pc with
  | error f => simp [hl, bind, Except.bind] at h
  | ok raw =>
    simp only [hl, bind, Except.bind, pure, Except.pure, Except.ok.injEq] at h
    split at h
    · exact absurd h nofun
    · exact ⟨raw, (Option.some.inj h).symm⟩

theorem pc_of_fetch {mem : Memory} {pc : Word} {g : InFlight}
    (h : fetch mem pc = .ok (some g)) : g.pc = pc := by
  obtain ⟨raw, rfl⟩ := exists_fetched_of_fetch h
  rfl

/-! ## What the later stages leave alone -/

/-- The record without what execution has prepared. -/
def asDecoded (i : InFlight) : InFlight :=
  { i with stage := .decode, access := none, result := none }

theorem asDecoded_of_accessMemory {e a : InFlight} {mem mem' : Memory}
    (h : e.accessMemory mem = .ok (a, mem')) : a.asDecoded = e.asDecoded := by
  rcases accessMemory_cases h with ⟨-, rfl, -⟩ | ⟨_, _, -, -, rfl, -⟩ | ⟨_, _, -, -, rfl, -⟩ <;> rfl

theorem asDecoded_of_writeBack {a j : InFlight} {regs regs' : Registers}
    (h : a.writeBack regs = .ok (j, regs')) : j.asDecoded = a.asDecoded := by
  obtain ⟨rfl, -⟩ := writeBack_eq_ok_iff.mp h
  rfl

theorem pc_of_asDecoded {a b : Option InFlight} (h : a.map asDecoded = b.map asDecoded) :
    a.map InFlight.pc = b.map InFlight.pc := by
  have hp (x : Option InFlight) : x.map InFlight.pc = (x.map asDecoded).map InFlight.pc := by
    cases x <;> rfl
  rw [hp a, h, ← hp b]

theorem controlFlowIn_of_asDecoded {a b : Option InFlight} (h : a.map asDecoded = b.map asDecoded) :
    Hazard.controlFlowIn a = Hazard.controlFlowIn b := by
  have hc (x : Option InFlight) :
      Hazard.controlFlowIn x = Hazard.controlFlowIn (x.map asDecoded) := by
    cases x <;> rfl
  rw [hc a, h, ← hc b]

/-- Operands that are supplied leave a record decoded. -/
theorem IsDecoded.supplyFrom {d : InFlight} {w pc : Word} {o : Opcode} (h : d.IsDecoded w pc o)
    (slot : Option InFlight) : (Hazard.supplyFrom slot d).IsDecoded w pc o := by
  unfold Hazard.supplyFrom
  split
  · exact ⟨h.raw, h.pc, h.opcode, h.format, h.fields, h.access, h.result⟩
  · exact h

theorem isControlFlow_forward (slots : Slots) (i : InFlight) :
    (Hazard.forward slots i).isControlFlow = i.isControlFlow := by
  have hs (slot : Option InFlight) (i : InFlight) :
      (Hazard.supplyFrom slot i).isControlFlow = i.isControlFlow := by
    unfold Hazard.supplyFrom
    split <;> rfl
  rw [Hazard.forward_eq, hs, hs, hs]

theorem IsDecoded.forward {d : InFlight} {w pc : Word} {o : Opcode} (h : d.IsDecoded w pc o)
    (slots : Slots) : (Hazard.forward slots d).IsDecoded w pc o := by
  rw [Hazard.forward_eq]
  exact ((h.supplyFrom _).supplyFrom _).supplyFrom _

end InFlight

namespace Machine

variable {m m' : Machine}

/-! ## The slots after a cycle -/

theorem asDecoded_executing (m : Machine) :
    m.executing.map InFlight.asDecoded = m.slots.decode.map InFlight.asDecoded := by
  unfold executing
  cases m.slots.decode <;> rfl

theorem accessing_cases {a : Option InFlight × Memory} (h : m.accessing = .ok a) :
    m.slots.execute = none ∧ a = (none, m.mem) ∨
      ∃ e i mem, m.slots.execute = some e ∧ e.accessMemory m.mem = .ok (i, mem) ∧
        a = (some i, mem) := by
  unfold accessing at h
  cases he : m.slots.execute with
  | none =>
    rw [he] at h
    exact .inl ⟨rfl, (Except.ok.inj h).symm⟩
  | some e =>
    rw [he] at h
    cases ha : e.accessMemory m.mem with
    | error f => simp [ha, Except.map] at h
    | ok b =>
      simp only [ha, Except.map, Except.ok.injEq] at h
      exact .inr ⟨e, b.1, b.2, rfl, ha, h.symm⟩

theorem retiring_cases {r : Option InFlight × Registers} (h : m.retiring = .ok r) :
    m.slots.memory = none ∧ r = (none, m.cpu.regs) ∨
      ∃ a i regs, m.slots.memory = some a ∧ a.writeBack m.cpu.regs = .ok (i, regs) ∧
        r = (some i, regs) := by
  unfold retiring at h
  cases hm : m.slots.memory with
  | none =>
    rw [hm] at h
    exact .inl ⟨rfl, (Except.ok.inj h).symm⟩
  | some a =>
    rw [hm] at h
    cases hw : a.writeBack m.cpu.regs with
    | error f => simp [hw, Except.map] at h
    | ok b =>
      simp only [hw, Except.map, Except.ok.injEq] at h
      exact .inr ⟨a, b.1, b.2, rfl, hw, h.symm⟩

theorem asDecoded_of_accessing {a : Option InFlight × Memory} (h : m.accessing = .ok a) :
    a.1.map InFlight.asDecoded = m.slots.execute.map InFlight.asDecoded := by
  rcases accessing_cases h with ⟨he, rfl⟩ | ⟨e, i, mem, he, ha, rfl⟩
  · rw [he]
  · rw [he]
    exact congrArg some (InFlight.asDecoded_of_accessMemory ha)

theorem asDecoded_of_retiring {r : Option InFlight × Registers} (h : m.retiring = .ok r) :
    r.1.map InFlight.asDecoded = m.slots.memory.map InFlight.asDecoded := by
  rcases retiring_cases h with ⟨hm, rfl⟩ | ⟨a, i, regs, hm, hw, rfl⟩
  · rw [hm]
  · rw [hm]
    exact congrArg some (InFlight.asDecoded_of_writeBack hw)

theorem at_succ_of_step (h : m.step = .ok m') {x y : Stage} (hx : x ≠ .fetch)
    (hy : y.number = x.number + 1) :
    (m'.slots.at y).map InFlight.asDecoded = (m.slots.at x).map InFlight.asDecoded := by
  obtain ⟨f, a, r, -, ha, hr, rfl⟩ := step_eq_ok_iff.mp h
  obtain ⟨hexe, hmem, hwb, -⟩ := assembled_back m f a r
  cases x with
  | fetch => exact absurd rfl hx
  | decode =>
    obtain rfl : y = .execute := Stage.number_inj hy
    rw [Slots.at, Slots.at, hexe, asDecoded_executing]
  | execute =>
    obtain rfl : y = .memory := Stage.number_inj hy
    rw [Slots.at, Slots.at, hmem, asDecoded_of_accessing ha]
  | memory =>
    obtain rfl : y = .writeBack := Stage.number_inj hy
    rw [Slots.at, Slots.at, hwb, asDecoded_of_retiring hr]
  | writeBack => cases y <;> exact absurd hy (by decide)

theorem at_succ_eq_none (h : m.step = .ok m') {x y : Stage} (hx : x ≠ .fetch)
    (hy : y.number = x.number + 1) (hn : m.slots.at x = none) : m'.slots.at y = none := by
  have hs := at_succ_of_step h hx hy
  rw [hn] at hs
  exact Option.map_eq_none_iff.mp hs

theorem controlFlowIn_at_succ (h : m.step = .ok m') {x y : Stage} (hx : x ≠ .fetch)
    (hy : y.number = x.number + 1) :
    Hazard.controlFlowIn (m'.slots.at y) = Hazard.controlFlowIn (m.slots.at x) :=
  InFlight.controlFlowIn_of_asDecoded (at_succ_of_step h hx hy)

theorem controlFlowIn_execute (h : m.step = .ok m') :
    Hazard.controlFlowIn m'.slots.execute = Hazard.controlFlowIn m.slots.decode :=
  controlFlowIn_at_succ (x := .decode) (y := .execute) h nofun rfl

theorem controlFlowIn_memory (h : m.step = .ok m') :
    Hazard.controlFlowIn m'.slots.memory = Hazard.controlFlowIn m.slots.execute :=
  controlFlowIn_at_succ (x := .execute) (y := .memory) h nofun rfl

theorem decode_of_step (h : m.step = .ok m') {d : InFlight} (hd : m'.slots.decode = some d) :
    ∃ g o, m.slots.fetch = some g ∧ Opcode.ofWord? g.raw = some o ∧
      d.IsDecoded g.raw g.pc o := by
  obtain ⟨f, a, r, -, -, -, rfl⟩ := step_eq_ok_iff.mp h
  obtain ⟨i, hi, -, rfl⟩ := assembled_decode hd
  obtain ⟨g, hg, hdec⟩ := Option.bind_eq_some_iff.mp hi
  obtain ⟨o, ho, hdec'⟩ := InFlight.isDecoded_of_decode? hdec
  exact ⟨g, o, hg, ho, hdec'.forward _⟩

/-! ## Records on their way -/

theorem isDecoded_of_reachable (hm : Reachable m) {d : InFlight} (hd : m.slots.decode = some d) :
    ∃ o, Opcode.ofWord? d.raw = some o ∧ d.IsDecoded d.raw d.pc o := by
  cases hm with
  | start h => exact absurd hd nofun
  | step hm h =>
    obtain ⟨g, o, -, ho, hdec⟩ := decode_of_step h hd
    rw [← hdec.raw] at ho
    exact ⟨o, ho, rfl, rfl, hdec.opcode, hdec.format, by rw [hdec.fields, hdec.raw], hdec.access,
      hdec.result⟩

theorem executed_of_reachable (hm : Reachable m) {e : InFlight} (he : m.slots.execute = some e) :
    ∃ (d : InFlight) (o : Opcode), d.IsDecoded d.raw d.pc o ∧ e = d.execute.1 := by
  cases hm with
  | start h => exact absurd he nofun
  | step hm h =>
    obtain ⟨f, a, r, -, -, -, rfl⟩ := step_eq_ok_iff.mp h
    rw [(assembled_back _ f a r).1] at he
    obtain ⟨d, hd, rfl⟩ := Option.map_eq_some_iff.mp he
    obtain ⟨o, -, hdec⟩ := isDecoded_of_reachable hm hd
    exact ⟨d, o, hdec, rfl⟩

end Machine

end FiveStage
