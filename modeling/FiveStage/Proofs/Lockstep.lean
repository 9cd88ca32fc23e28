import FiveStage.Proofs.Schedule

/-
  Lockstep — the pipeline and the course of its program, cycle by cycle

  `InStep s n m` says of a machine `m` at the end of cycle `n` that it is where
  the schedule of the program started in `s` wants it: each slot behind the first
  has the record of the instruction that is due there, as sequential execution
  leaves it after that stage, and the registers and memory are those of the
  course. The front of the pipeline goes through six phases (`Front`).

  What is proved:
    1. `accessing_eq`, `retiring_eq` — memory access and write-back do to a
       machine in step what the course does.
    2. `forward_eq_decoded` — an instruction decoded early, with registers that
       are up to three writes behind, ends up with the operands it has in the
       course.
    3. `decode_of_entering` — so an instruction that has entered is decoded as in
       the course.
-/

namespace FiveStage

open FiveStage.Sequential

/-- The word and the address that tell an instruction before it is decoded. -/
def InFlight.tag (i : InFlight) : Word × Word := (i.raw, i.pc)

/-- The same of the instruction that step `k` runs. -/
def Sequential.tagAt (s : State) (k : Nat) : Word × Word :=
  ((stateAt s k).word, (stateAt s k).cpu.pc)

/-- What the first slot, the program counter and the stall are at the end of
cycle `n`. Nothing younger than the first slot's instruction has entered. -/
inductive Front (s : State) (n : Nat) (slot : Option InFlight) (pc : Word) (stall : Bool) : Prop
  /-- The next instruction is fetched in the next cycle, if there is one. -/
  | ready (ht : entersAt s (begun s n) ≤ n + 1) (hw : waits s (begun s n) = false)
      (hs : slot.map InFlight.tag = (entering s n).map (tagAt s))
      (hpc : pc = (stateAt s (begun s n)).cpu.pc) (hst : stall = false)
  /-- The next instruction is fetched in the next cycle and will have to wait for
  the load in the first slot. -/
  | loading (ht : entersAt s (begun s n) = n + 2) (hw : waits s (begun s n) = true)
      (hs : slot.map InFlight.tag = (entering s n).map (tagAt s))
      (hpc : pc = (stateAt s (begun s n)).cpu.pc) (hst : stall = false)
  /-- The instruction in the first slot will be sent back there. -/
  | waiting (ht : entersAt s (begun s n) = n + 1) (hw : waits s (begun s n) = true)
      (hs : slot.map InFlight.tag = some (tagAt s (begun s n)))
      (hpc : pc = (stateAt s (begun s n)).cpu.pc + 4) (hst : stall = false)
  /-- A branch or jump is in the first slot. -/
  | transfer (k : Nat) (hk : begun s n = k + 1) (ht : entersAt s k = n)
      (hb : InFlight.isTransfer (stateAt s k).word = true)
      (hs : slot.map InFlight.tag = some (tagAt s k))
      (hpc : pc = (stateAt s k).cpu.pc + 4) (hst : stall = false)
  /-- A branch or jump has been decoded. -/
  | held (k : Nat) (hk : begun s n = k + 1) (ht : entersAt s k + 1 = n)
      (hb : InFlight.isTransfer (stateAt s k).word = true)
      (hs : slot = none) (hpc : pc = (stateAt s k).cpu.pc + 4) (hst : stall = true)
  /-- A branch or jump has been executed and not yet written back. -/
  | resolved (k : Nat) (hk : begun s n = k + 1) (hlo : entersAt s k + 2 ≤ n)
      (hhi : n ≤ entersAt s k + 3) (hb : InFlight.isTransfer (stateAt s k).word = true)
      (hs : slot = none) (hpc : pc = (stateAt s (k + 1)).cpu.pc) (hst : stall = true)

structure InStep (s : State) (n : Nat) (m : Machine) : Prop where
  front : Front s n m.slots.fetch m.cpu.pc m.cpu.stall
  regs : m.cpu.regs = (stateAt s (begun s (n - 4))).cpu.regs
  mem : m.mem = (stateAt s (begun s (n - 3))).mem
  decode : m.slots.decode = (entering s (n - 1)).bind fun k => (stateAt s k).decoded
  execute : m.slots.execute = (entering s (n - 2)).bind fun k => (stateAt s k).executed
  memory : m.slots.memory = (entering s (n - 3)).bind fun k => (stateAt s k).accessed
  writeBack : m.slots.writeBack = (entering s (n - 4)).bind fun k => (stateAt s k).completed

variable {s : State} {n : Nat} {m : Machine}

theorem inStep_start (hs : s.cpu.stall = false) : InStep s 0 (.start s) :=
  { front := .ready (Nat.le_refl 1) rfl rfl rfl hs
    regs := rfl, mem := rfl, decode := rfl, execute := rfl, memory := rfl, writeBack := rfl }

namespace InStep

/-! ## The stages behind the first -/

theorem executing_eq (h : InStep s n m) :
    m.executing = (entering s (n - 1)).bind fun k => (stateAt s k).executed := by
  rw [Machine.executing, h.decode]
  cases entering s (n - 1) <;> rfl

theorem redirecting_eq (h : InStep s n m) :
    m.redirecting = (entering s (n - 1)).bind fun k => (stateAt s k).target? := by
  rw [Machine.redirecting, h.decode]
  cases entering s (n - 1) <;> rfl

theorem accessing_eq (h : InStep s n m) (hf : NeverFaults s) :
    m.accessing = .ok ((entering s (n - 2)).bind fun k => (stateAt s k).accessed,
      (stateAt s (begun s (n - 2))).mem) := by
  have hm : m.mem = (stateAt s (begun s (n - 2 - 1))).mem := h.mem
  unfold Machine.accessing
  rw [h.execute]
  rcases begun_cases (s := s) (n - 2) with ⟨he, hb⟩ | ⟨he, hb⟩
  · rw [he, hb, hm]
    rfl
  · rw [he, hb, stateAt]
    obtain ⟨o, ho⟩ := hf (begun s (n - 2 - 1))
    cases hx : (stateAt s (begun s (n - 2 - 1))).executed with
    | none =>
      have hd := decoded_of_executed_none hx
      obtain ⟨hmem, -⟩ := next_of_not_decoded ho hd
      simp only [Option.bind_some, hx, accessed_of_not_decoded hd, hmem, hm]
    | some e =>
      obtain ⟨a, ha, hacc⟩ := accessMemory_executed ho hx
      simp only [Option.bind_some, hx, hm, ha, hacc, Except.map]

theorem retiring_eq (h : InStep s n m) (hf : NeverFaults s) :
    m.retiring = .ok ((entering s (n - 3)).bind fun k => (stateAt s k).completed,
      (stateAt s (begun s (n - 3))).cpu.regs) := by
  have hr : m.cpu.regs = (stateAt s (begun s (n - 3 - 1))).cpu.regs := h.regs
  unfold Machine.retiring
  rw [h.memory]
  rcases begun_cases (s := s) (n - 3) with ⟨he, hb⟩ | ⟨he, hb⟩
  · rw [he, hb, hr]
    rfl
  · rw [he, hb, stateAt]
    obtain ⟨o, ho⟩ := hf (begun s (n - 3 - 1))
    cases hx : (stateAt s (begun s (n - 3 - 1))).accessed with
    | none =>
      have hd := decoded_of_not_accessed ho hx
      obtain ⟨-, hregs⟩ := next_of_not_decoded ho hd
      simp only [Option.bind_some, hx, completed_of_not_decoded hd, hregs, hr]
    | some a =>
      obtain ⟨r, hw, hc⟩ := writeBack_accessed ho hx
      simp only [Option.bind_some, hx, hr, hw, hc, Except.map]

/-! ## Operands -/

variable {f : Option InFlight} {a : Option InFlight × Memory} {r : Option InFlight × Registers}

/-- What is decoded with the registers of a cycle is what is decoded with those
of the cycle before, supplied by the instruction that enters in between. -/
theorem decode?_begun (hf : NeverFaults s) (g : InFlight) (i : Nat) :
    g.decode? (stateAt s (begun s i)).cpu.regs
      = (g.decode? (stateAt s (begun s (i - 1))).cpu.regs).map
          (Hazard.supplyFrom ((entering s i).bind fun k => (stateAt s k).completed)) := by
  rcases begun_cases (s := s) i with ⟨he, hb⟩ | ⟨he, hb⟩
  · rw [he, hb]
    exact Option.map_id'.symm
  · rw [he, hb, Option.bind_some]
    obtain ⟨o, ho⟩ := hf (begun s (i - 1))
    exact decode?_next ho g

theorem supplyFrom_due_accessed (hf : NeverFaults s) (due : Option Nat) (i : InFlight) :
    Hazard.supplyFrom (due.bind fun k => (stateAt s k).accessed) i
      = Hazard.supplyFrom (due.bind fun k => (stateAt s k).completed) i := by
  cases due with
  | none => rfl
  | some k =>
    obtain ⟨o, ho⟩ := hf k
    exact supplyFrom_accessed ho i

theorem supplyFrom_due_executed (hf : NeverFaults s) {due : Option Nat} {i : InFlight}
    (hw : (due.bind fun k => (stateAt s k).executed).any (InFlight.awaits · i) = false) :
    Hazard.supplyFrom (due.bind fun k => (stateAt s k).executed) i
      = Hazard.supplyFrom (due.bind fun k => (stateAt s k).completed) i := by
  cases due with
  | none => rfl
  | some k =>
    obtain ⟨o, ho⟩ := hf k
    exact (supplyFrom_executed ho hw).trans (supplyFrom_accessed ho i)

/-- An instruction that need not wait is forwarded the operands it has in the
course, although the registers it was decoded with are three writes behind. -/
theorem forward_eq_decoded (h : InStep s n m) (hf : NeverFaults s) (ha : m.accessing = .ok a)
    (hr : m.retiring = .ok r) {g i : InFlight} (hg : g.decode? m.cpu.regs = some i)
    (hw : m.executing.any (InFlight.awaits · i) = false) :
    g.decode? (stateAt s (begun s (n - 1))).cpu.regs
      = some (Hazard.forward (m.shifted f a.1 r.1) i) := by
  obtain rfl := Except.ok.inj (ha.symm.trans (h.accessing_eq hf))
  obtain rfl := Except.ok.inj (hr.symm.trans (h.retiring_eq hf))
  -- the three instructions ahead supply what the registers lack, oldest first
  have h3 := decode?_begun hf g (n - 3)
  have h2 := decode?_begun hf g (n - 2)
  have h1 := decode?_begun hf g (n - 1)
  change _ = (g.decode? (stateAt s (begun s (n - 4))).cpu.regs).map _ at h3
  change _ = (g.decode? (stateAt s (begun s (n - 3))).cpu.regs).map _ at h2
  change _ = (g.decode? (stateAt s (begun s (n - 2))).cpu.regs).map _ at h1
  rw [← h.regs, hg, Option.map_some] at h3
  rw [h3, Option.map_some] at h2
  rw [h2, Option.map_some] at h1
  rw [h.executing_eq] at hw
  rw [h1, Hazard.forward_eq]
  simp only [Machine.shifted, h.executing_eq]
  rw [supplyFrom_due_executed hf (by simpa using hw), supplyFrom_due_accessed hf]

/-! ## Decoding -/

/-- Only the word and the address of a record matter to decoding. -/
theorem decode?_of_tag {g : InFlight} {k : Nat} (hg : g.tag = tagAt s k) (regs : Registers) :
    g.decode? regs
      = (InFlight.fetched (stateAt s k).word (stateAt s k).cpu.pc).decode? regs := by
  obtain ⟨hraw, hpc⟩ := Prod.mk.inj hg
  simp only [InFlight.decode?, InFlight.fetched, hraw, hpc]

theorem isSome_decoding {k : Nat} (hs : m.slots.fetch.map InFlight.tag = some (tagAt s k)) :
    m.decoding.isSome = InFlight.isSupported (stateAt s k).word := by
  obtain ⟨g, hg, htag⟩ := Option.map_eq_some_iff.mp hs
  rw [Machine.decoding, hg, Option.bind_some, decode?_of_tag htag]
  exact InFlight.isSome_decode? _ _

theorem isControlFlow_of_decoding {k : Nat}
    (hs : m.slots.fetch.map InFlight.tag = some (tagAt s k)) {i : InFlight}
    (hi : m.decoding = some i) : i.isControlFlow = InFlight.isTransfer (stateAt s k).word := by
  obtain ⟨g, hg, htag⟩ := Option.map_eq_some_iff.mp hs
  rw [Machine.decoding, hg, Option.bind_some] at hi
  obtain ⟨o, ho, hdec⟩ := InFlight.isDecoded_of_decode? hi
  rw [(Prod.mk.inj htag).1] at ho
  rw [hdec.isControlFlow, InFlight.isTransfer, ho, Option.any_some]

theorem tag_of_decoding {k : Nat} (hs : m.slots.fetch.map InFlight.tag = some (tagAt s k))
    {i : InFlight} (hi : m.decoding = some i) : i.tag = tagAt s k := by
  obtain ⟨g, hg, htag⟩ := Option.map_eq_some_iff.mp hs
  rw [Machine.decoding, hg, Option.bind_some] at hi
  obtain ⟨o, -, hdec⟩ := InFlight.isDecoded_of_decode? hi
  rw [← htag, InFlight.tag, hdec.raw, hdec.pc]
  rfl

/-- What is decoded waits for the load ahead if the words say so. -/
theorem awaits_executing (h : InStep s n m) {j k : Nat} (hj : entering s (n - 1) = some j)
    (hs : m.slots.fetch.map InFlight.tag = some (tagAt s k)) {i : InFlight}
    (hi : m.decoding = some i) :
    m.executing.any (InFlight.awaits · i)
      = InFlight.loadUse (stateAt s j).word (stateAt s k).word := by
  obtain ⟨g, hg, htag⟩ := Option.map_eq_some_iff.mp hs
  rw [Machine.decoding, hg, Option.bind_some] at hi
  rw [h.executing_eq, hj, Option.bind_some, awaits_executed _ hi, (Prod.mk.inj htag).1]

/-- The instruction that has just entered need not wait, and is decoded as in the
course. -/
theorem decode_of_entering (h : InStep s n m) (hf : NeverFaults s) (ha : m.accessing = .ok a)
    (hr : m.retiring = .ok r) {k : Nat} (hk : entering s n = some k)
    (hs : m.slots.fetch.map InFlight.tag = some (tagAt s k)) {i : InFlight}
    (hi : m.decoding = some i) :
    Hazard.awaitsLoad (m.shifted f a.1 r.1) i = false ∧
      (stateAt s k).decoded = some (Hazard.forward (m.shifted f a.1 r.1) i) := by
  obtain ⟨g, hg, htag⟩ := Option.map_eq_some_iff.mp hs
  have hgi : g.decode? m.cpu.regs = some i := by rwa [Machine.decoding, hg] at hi
  have hw : m.executing.any (InFlight.awaits · i) = false := by
    cases hj : entering s (n - 1) with
    | none => rw [h.executing_eq, hj]; rfl
    | some j =>
      obtain ⟨rfl, -, hw⟩ := of_entering_pred hk hj
      exact (h.awaits_executing hj hs hi).trans hw
  refine ⟨(InFlight.awaitsLoad_eq _ _).trans hw, ?_⟩
  rw [← h.forward_eq_decoded hf ha hr hgi hw, (begun_of_entering hk).1, decode?_of_tag htag]
  rfl

/-- What has just entered is decoded as in the course, whatever is fetched behind it. -/
theorem assembled_decode_of_entering (h : InStep s n m) (hf : NeverFaults s)
    (ha : m.accessing = .ok a) (hr : m.retiring = .ok r)
    (hs : m.slots.fetch.map InFlight.tag = (entering s n).map (tagAt s)) :
    (m.assembled f a r).slots.decode = (entering s n).bind fun k => (stateAt s k).decoded := by
  cases hk : entering s n with
  | none =>
    rw [hk] at hs
    have hd : m.decoding = none := by rw [Machine.decoding, Option.map_eq_none_iff.mp hs]; rfl
    exact Machine.assembled_decode_of_none hd
  | some k =>
    rw [hk] at hs
    rw [Option.bind_some]
    cases hd : m.decoding with
    | none =>
      have hn : (stateAt s k).decoded = none := by
        rw [decoded_eq_none_iff, ← isSome_decoding hs, hd]
        rfl
      rw [hn, Machine.assembled_decode_of_none hd]
    | some i =>
      obtain ⟨hw, hdec⟩ := h.decode_of_entering hf ha hr hk hs hd
      rw [hdec, Machine.assembled_decode_of_kept hd hw]

/-- Unless a branch or jump has just entered, a cycle moves the slots on. -/
theorem assembled_of_entering (h : InStep s n m) (hf : NeverFaults s) (ha : m.accessing = .ok a)
    (hr : m.retiring = .ok r) (hs : m.slots.fetch.map InFlight.tag = (entering s n).map (tagAt s))
    (hp : ∀ k, entering s n = some k → InFlight.isTransfer (stateAt s k).word = false) :
    m.assembled f a r
      = { cpu := Cycle.advance (m.shifted f a.1 r.1) (m.released r)
          mem := a.2
          slots := ⟨f, (entering s n).bind fun k => (stateAt s k).decoded, m.executing, a.1,
            r.1⟩ } := by
  cases hk : entering s n with
  | none =>
    rw [hk] at hs
    have hd : m.decoding = none := by rw [Machine.decoding, Option.map_eq_none_iff.mp hs]; rfl
    rw [Machine.assembled_of_bubble hd, Machine.shifted, hd]
    rfl
  | some k =>
    rw [hk] at hs
    cases hd : m.decoding with
    | none =>
      have hn : (stateAt s k).decoded = none := by
        rw [decoded_eq_none_iff, ← isSome_decoding hs, hd]
        rfl
      rw [Machine.assembled_of_bubble hd, Machine.shifted, hd, Option.bind_some, hn]
    | some i =>
      -- neither hazard is met: it is no branch or jump and need not wait
      obtain ⟨hw, hdec⟩ := h.decode_of_entering hf ha hr hk hs hd
      have hi : i.isControlFlow = false := (isControlFlow_of_decoding hs hd).trans (hp k hk)
      rw [Machine.assembled_of_plain hd hi hw, Option.bind_some, hdec]

/-- A branch or jump is written back three cycles after it has entered. -/
theorem controlFlowIn_retired (h : InStep s n m) (hf : NeverFaults s) (hr : m.retiring = .ok r) :
    Hazard.controlFlowIn r.1
      = (entering s (n - 3)).any fun k => InFlight.isTransfer (stateAt s k).word := by
  obtain rfl := Except.ok.inj (hr.symm.trans (h.retiring_eq hf))
  cases entering s (n - 3) with
  | none => rfl
  | some k =>
    obtain ⟨o, ho⟩ := hf k
    exact controlFlowIn_completed ho

end InStep

end FiveStage
