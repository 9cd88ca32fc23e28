import FiveStage.Proofs.Checks
import FiveStage.Proofs.Course

/-
  Faults — a step faults for an address outside memory, and then changes nothing

  Fetching reads memory, an access reads and perhaps writes it, and write-back
  writes a register. A store reads the word it merges into before it writes it
  back, and a cycle accesses memory before it writes a register, so the first fault
  is met before anything has changed.

  What is proved:
    1. `accessMemory_or_not_holds`, `exists_writeBack` — what a sound instruction asks
       for is refused for its address or not at all.
    2. `step_of_fetching_error`, `step_of_accessing_error` — a cycle that faults
       leaves the machine as it was.
    3. `faults_only_outside` — when a cycle faults, and when a step of sequential
       execution does; no other check fails on the way.
-/

namespace FiveStage

/-! ## Memory -/

namespace Memory

/-- There is a word at an address. -/
def Holds (mem : Memory) (address : Word) : Prop := address.cellOf < mem.capacity

instance (mem : Memory) (address : Word) : Decidable (mem.Holds address) :=
  inferInstanceAs (Decidable (_ < _))

variable {mem : Memory} {address : Word}

theorem read_of_holds (h : mem.Holds address) : mem.read address = .ok (mem.cell address.cellOf) :=
  if_pos h

theorem read_of_not_holds (h : ¬mem.Holds address) : mem.read address = .error ⟨address⟩ :=
  if_neg h

theorem write_of_holds (h : mem.Holds address) (v : Word) :
    mem.write address v = .ok (mem.set address.cellOf v h) :=
  dif_pos h

theorem write_of_not_holds (h : ¬mem.Holds address) (v : Word) :
    mem.write address v = .error ⟨address⟩ :=
  dif_neg h

theorem load_of_holds (h : mem.Holds address) : mem.load address = .ok (mem.cell address.cellOf) := by
  rw [load, read_of_holds h]
  rfl

theorem load_of_not_holds (h : ¬mem.Holds address) :
    mem.load address = .error (.load ⟨address⟩) := by
  rw [load, read_of_not_holds h]
  rfl

theorem store_of_holds (h : mem.Holds address) (v : Word) :
    mem.store address v = .ok (mem.set address.cellOf v h) := by
  rw [store, write_of_holds h]
  rfl

end Memory

/-! ## Stages -/

namespace InFlight

theorem fetch_of_not_holds {mem : Memory} {pc : Word} (h : ¬mem.Holds pc) :
    fetch mem pc = .error (.load ⟨pc⟩) := by
  rw [fetch, Memory.load_of_not_holds h]
  rfl

theorem accessMemory_of_not_holds {e : InFlight} {mem : Memory} {x : Access}
    (hx : e.access = some x) (h : ¬mem.Holds x.address) :
    e.accessMemory mem = .error (.load ⟨x.address⟩) := by
  have hw : x.word mem = .error (.load ⟨x.address⟩) := by
    rw [Access.word, Memory.load_of_not_holds h]
    rfl
  simp only [accessMemory, hx, hw]
  rfl

/-- A loaded word can be extended from any width that has a sign bit. -/
theorem exists_word {x : Access} {mem : Memory} (h : mem.Holds x.address)
    (hw : x.kind = .load → 1 ≤ Word.popcount x.mask ∧ Word.popcount x.mask ≤ 32) :
    ∃ w, x.word mem = .ok w := by
  simp only [Access.word, Memory.load_of_holds h, bind, Except.bind]
  cases hk : x.kind with
  | store => exact ⟨_, rfl⟩
  | load =>
    dsimp only
    split
    · rw [Word.signExtendFrom_eq_ok _ (hw hk)]
      exact ⟨_, rfl⟩
    · exact ⟨_, rfl⟩

/-- An access goes through or is refused for its address: a store can put its word
back where it has read the old one. -/
theorem accessMemory_or_not_holds {e : InFlight} (hs : e.Sound) (mem : Memory) :
    (∃ a mem', e.accessMemory mem = .ok (a, mem')) ∨
      ∃ x, e.access = some x ∧ ¬mem.Holds x.address ∧
        e.accessMemory mem = .error (.load ⟨x.address⟩) := by
  cases hx : e.access with
  | none => exact .inl ⟨_, _, by simp only [accessMemory, hx]; rfl⟩
  | some x =>
    by_cases h : mem.Holds x.address
    · obtain ⟨w, hw⟩ := exists_word h (hs.width hx)
      simp only [accessMemory, hx, hw, Memory.store_of_holds h, bind, Except.bind]
      cases x.kind <;> exact .inl ⟨_, _, rfl⟩
    · exact .inr ⟨x, rfl, h, accessMemory_of_not_holds hx h⟩

theorem exists_writeBack {a : InFlight} (hs : a.Sound) (regs : Registers) :
    ∃ r regs', a.writeBack regs = .ok (r, regs') := by
  unfold writeBack
  cases hr : a.result with
  | none => exact ⟨_, _, rfl⟩
  | some w =>
    have hd := hs.dest hr
    simp only [Registers.write, Registers.nameOf_of_lt hd, bind, Except.bind, Except.map]
    exact ⟨_, _, rfl⟩

end InFlight

/-! ## Cycles -/

namespace Machine

variable {m m' : Machine}

theorem step_of_fetching_error {f : Fault} (h : m.fetching = .error f) :
    m.step = .error ⟨f, m⟩ := by
  simp only [step, stepIn, Stage.all, Cycle.perform, Cycle.act, fetch_start, h]
  rfl

/-- The stages before memory access leave the cpu and memory alone. -/
theorem step_of_accessing_error {f : Option InFlight} {e : Fault} (hf : m.fetching = .ok f)
    (h : m.accessing = .error e) : m.step = .error ⟨e, m⟩ := by
  simp only [step, stepIn, Stage.all, Cycle.perform, Cycle.act, fetch_start, hf, Except.map]
  rw [execute_of_empty rfl, memory_of_mem rfl, h]
  rfl

/-- An address outside memory that the next cycle reads. -/
inductive Astray (m : Machine) : Word → Prop
  /-- The program counter, unless fetching is held. -/
  | fetch (hs : m.cpu.stall = false) (h : ¬m.mem.Holds m.cpu.pc) : Astray m m.cpu.pc
  /-- The address of what has been executed. -/
  | access {e : InFlight} {x : Access} (he : m.slots.execute = some e) (hx : e.access = some x)
      (h : ¬m.mem.Holds x.address) : Astray m x.address

theorem fetching_or_astray (m : Machine) :
    (∃ f, m.fetching = .ok f) ∨
      m.Astray m.cpu.pc ∧ m.fetching = .error (.load ⟨m.cpu.pc⟩) := by
  cases hs : m.cpu.stall with
  | true => exact .inl ⟨none, fetching_of_stall hs⟩
  | false =>
    rw [fetching_of_unstalled hs]
    by_cases h : m.mem.Holds m.cpu.pc
    · exact .inl ⟨_, InFlight.fetch_of_inside h⟩
    · exact .inr ⟨.fetch hs h, InFlight.fetch_of_not_holds h⟩

theorem accessing_or_astray (hm : Reachable m) :
    (∃ a, m.accessing = .ok a) ∨
      ∃ address, m.Astray address ∧ m.accessing = .error (.load ⟨address⟩) := by
  unfold accessing
  cases he : m.slots.execute with
  | none => exact .inl ⟨_, rfl⟩
  | some e =>
    have hs : e.Sound := isSound_of_reachable hm (x := .execute) he
    dsimp only
    rcases InFlight.accessMemory_or_not_holds hs m.mem with ⟨a, mem, ha⟩ | ⟨x, hx, hout, ha⟩
    · rw [ha]
      exact .inl ⟨_, rfl⟩
    · rw [ha]
      exact .inr ⟨x.address, .access he hx hout, rfl⟩

theorem exists_retiring (hm : Reachable m) : ∃ r, m.retiring = .ok r := by
  unfold retiring
  cases ha : m.slots.memory with
  | none => exact ⟨_, rfl⟩
  | some a =>
    have hs : a.Sound := isSound_of_reachable hm (x := .memory) ha
    obtain ⟨r, regs, hr⟩ := InFlight.exists_writeBack hs m.cpu.regs
    dsimp only
    rw [hr]
    exact ⟨_, rfl⟩

/-- Of two addresses outside memory the one that is fetched from is met first. -/
theorem step_or_astray (hm : Reachable m) :
    (∃ m', m.step = .ok m') ∨
      ∃ address, m.Astray address ∧ m.step = .error ⟨.load ⟨address⟩, m⟩ := by
  rcases fetching_or_astray m with ⟨f, hf⟩ | ⟨ha, hf⟩
  · rcases accessing_or_astray hm with ⟨a, ha⟩ | ⟨address, hout, ha⟩
    · obtain ⟨r, hr⟩ := exists_retiring hm
      exact .inl ⟨_, step_eq_ok_iff.mpr ⟨f, a, r, hf, ha, hr, rfl⟩⟩
    · exact .inr ⟨address, hout, step_of_accessing_error hf ha⟩
  · exact .inr ⟨m.cpu.pc, ha, step_of_fetching_error hf⟩

theorem not_astray_of_step (h : m.step = .ok m') (address : Word) : ¬m.Astray address := by
  obtain ⟨f, a, r, hf, ha, -, -⟩ := step_eq_ok_iff.mp h
  intro hout
  cases hout with
  | fetch hs hn =>
    rw [fetching_of_unstalled hs, InFlight.fetch_of_not_holds hn] at hf
    exact absurd hf nofun
  | access he hx hn =>
    rw [accessing, he] at ha
    dsimp only at ha
    rw [InFlight.accessMemory_of_not_holds hx hn] at ha
    exact absurd ha nofun

end Machine

/-! ## Steps of sequential execution -/

namespace State

/-- The address that the word at the program counter loads from or stores to, if it
is a load or store of a width there is. -/
def effectiveAddress? (s : State) : Option Word :=
  match Opcode.ofWord? s.word with
  | some .load =>
    if (InFlight.loadWidth? (Fields.funct3Of s.word)).isSome then
      some (s.cpu.regs.get ((Fields.rs1Of s.word).setWidth 5)
        + Word.signExtend (Fields.immI s.word) 12)
    else none
  | some .store =>
    if (InFlight.storeWidth? (Fields.funct3Of s.word)).isSome then
      some (s.cpu.regs.get ((Fields.rs1Of s.word).setWidth 5)
        + Word.signExtend (Fields.immS s.word) 12)
    else none
  | _ => none

/-- An address outside memory that the next step reads. -/
inductive Astray (s : State) : Word → Prop
  | fetch (h : ¬s.mem.Holds s.cpu.pc) : Astray s s.cpu.pc
  | access {address : Word} (ha : s.effectiveAddress? = some address)
      (h : ¬s.mem.Holds address) : Astray s address

/-- Execution prepares an access to this address, or none. -/
theorem address_executed (s : State) :
    (s.executed.bind (·.access)).map Access.address = s.effectiveAddress? := by
  cases ho : Opcode.ofWord? s.word with
  | none =>
    have hd : s.decoded = none := Option.map_eq_none_iff.mpr ho
    rw [executed, hd, effectiveAddress?, ho]
    rfl
  | some o =>
    obtain ⟨d, hd⟩ : ∃ d, s.decoded = some d := by
      rw [← Option.isSome_iff_exists, Sequential.isSome_decoded, InFlight.isSupported, ho]
      rfl
    obtain ⟨o', ho', hdec⟩ := InFlight.isDecoded_of_decode? hd
    obtain rfl := Option.some.inj (ho.symm.trans ho')
    rw [executed, hd, Option.map_some, Option.bind_some, hdec.access_execute, effectiveAddress?, ho]
    have hplain (h : o ≠ .load) (h' : o ≠ .store) : (d.effectOf o.format o).access = none := by
      cases hx : (d.effectOf o.format o).access with
      | none => rfl
      | some x =>
        rcases InFlight.access_effectOf hx with ⟨hl, -⟩ | ⟨hl, -⟩
        · exact absurd hl h
        · exact absurd hl h'
    have hvalue := InFlight.value_of_decode? hd .rs1
    rw [InFlight.value, InFlight.field, hdec.fields] at hvalue
    cases o with
    | load =>
      show d.loadEffect.access.map Access.address = _
      have hf : d.funct3 = Fields.funct3Of s.word := by rw [InFlight.funct3, hdec.fields]; rfl
      have hi : d.imm = Fields.immI s.word := by rw [InFlight.imm, hdec.fields]; rfl
      rw [InFlight.loadEffect, InFlight.offset, hf, hi, hvalue]
      cases InFlight.loadWidth? (Fields.funct3Of s.word) <;> rfl
    | store =>
      show d.storeEffect.access.map Access.address = _
      have hf : d.funct3 = Fields.funct3Of s.word := by rw [InFlight.funct3, hdec.fields]; rfl
      have hi : d.imm = Fields.immS s.word := by rw [InFlight.imm, hdec.fields]; rfl
      rw [InFlight.storeEffect, InFlight.offset, hf, hi, hvalue]
      cases InFlight.storeWidth? (Fields.funct3Of s.word) <;> rfl
    | lui | auipc | jal | jalr | branch | op | opImm =>
      rw [hplain (by decide) (by decide)]
      rfl

end State

namespace Sequential

variable {s : State}

/-- An instruction is completed, or its access is refused before anything has changed. -/
theorem complete_or_not_holds {d : InFlight} (hs : d.execute.1.Sound) (s : State) :
    (∃ r s', complete s d = .ok (r, s')) ∨
      ∃ x, d.execute.1.access = some x ∧ ¬s.mem.Holds x.address ∧
        complete s d = .error ⟨.load ⟨x.address⟩, s⟩ := by
  rcases InFlight.accessMemory_or_not_holds hs s.mem with ⟨a, mem, ha⟩ | ⟨x, hx, hout, ha⟩
  · obtain ⟨r, regs, hr⟩ := InFlight.exists_writeBack (hs.accessMemory ha) s.cpu.regs
    exact .inl ⟨r, _, complete_eq_ok_iff.mpr ⟨a, mem, regs, ha, hr, rfl⟩⟩
  · exact .inr ⟨x, hx, hout, by simp only [complete, ha]⟩

theorem step_or_astray (s : State) :
    (∃ o, step s = .ok o) ∨
      ∃ address, s.Astray address ∧ step s = .error ⟨.load ⟨address⟩, s⟩ := by
  by_cases hpc : s.mem.Holds s.cpu.pc
  · rw [step_of_inside hpc]
    by_cases h0 : s.word = 0
    · exact .inl ⟨none, if_pos h0⟩
    rw [if_neg h0]
    cases hd : s.decoded with
    | none => exact .inl ⟨_, rfl⟩
    | some d =>
      obtain ⟨o, -, hdec⟩ := InFlight.isDecoded_of_decode? hd
      dsimp only
      rcases complete_or_not_holds hdec.isSound_execute s with ⟨r, s', hc⟩ | ⟨x, hx, hout, hc⟩
      · rw [hc]
        exact .inl ⟨_, rfl⟩
      · have haddr : s.effectiveAddress? = some x.address := by
          rw [← s.address_executed, State.executed, hd, Option.map_some, Option.bind_some, hx]
          rfl
        rw [hc]
        exact .inr ⟨x.address, .access haddr hout, rfl⟩
  · refine .inr ⟨s.cpu.pc, .fetch hpc, ?_⟩
    rw [step, InFlight.fetch_of_not_holds hpc]

theorem not_astray_of_step {o : Option State} (h : step s = .ok o) (address : Word) :
    ¬s.Astray address := by
  intro hout
  cases hout with
  | fetch hn => exact hn (inside_of_step h)
  | access ha hn =>
    rw [← s.address_executed] at ha
    obtain ⟨x, hx, rfl⟩ := Option.map_eq_some_iff.mp ha
    obtain ⟨e, he, hx⟩ := Option.bind_eq_some_iff.mp hx
    obtain ⟨a, hacc, -⟩ := accessMemory_executed h he
    rw [InFlight.accessMemory_of_not_holds hx hn] at hacc
    exact absurd hacc nofun

end Sequential

/-! ## When a step faults -/

/-- A step that goes through or meets a stray address, and not both, faults for the
stray addresses and only for them. -/
theorem fault_iff_of_or {σ α : Type} {x : Except (Breakdown σ) α} {state : σ} {P : Word → Prop}
    (h : (∃ a, x = .ok a) ∨ ∃ address, P address ∧ x = .error ⟨.load ⟨address⟩, state⟩)
    (hok : ∀ a, x = .ok a → ∀ address, ¬P address) :
    ((∃ b, x = .error b) ↔ ∃ address, P address) ∧
      ∀ b, x = .error b → b.state = state ∧ ∃ address, b.fault = .load ⟨address⟩ ∧ P address := by
  rcases h with ⟨a, ha⟩ | ⟨address, hP, hx⟩
  · refine ⟨⟨?_, fun ⟨address, hP⟩ => absurd hP (hok a ha address)⟩, ?_⟩
    · rintro ⟨b, hb⟩
      exact absurd (ha.symm.trans hb) nofun
    · intro b hb
      exact absurd (ha.symm.trans hb) nofun
  · refine ⟨⟨fun _ => ⟨address, hP⟩, fun _ => ⟨_, hx⟩⟩, ?_⟩
    intro b hb
    obtain rfl := Except.error.inj (hx.symm.trans hb)
    exact ⟨rfl, address, rfl, hP⟩

/-- A cycle faults exactly if fetching is not held and the program counter lies
outside memory, or what has been executed accesses an address outside. Likewise a
step of sequential execution, for its program counter and the address of its load
or store. The fault names that address, and everything is as it was before.

No other check fails. Whatever is in flight writes a register there is; decoding and
execution pass all checks of their own, of ranges, registers, widths and shift amounts;
and a range or width that passes its check is cut out or extended by shifts of 0 to 31
places. -/
theorem faults_only_outside {m : Machine} (hm : Machine.Reachable m) (s : State) :
    ((∃ b, m.step = .error b) ↔ ∃ address, m.Astray address) ∧
    (∀ b, m.step = .error b → b.state = m ∧
      ∃ address, b.fault = .load ⟨address⟩ ∧ m.Astray address) ∧
    (∀ x i w, m.slots.at x = some i → i.result = some w → w.dest.toNat < 32) ∧
    (∀ (i : InFlight) (regs : Registers), i.checkedDecode regs = .ok (i.decode? regs)) ∧
    (∀ i : InFlight, i.checkedExecute = .ok i.execute) ∧
    (∀ w lo hi x, Word.bitRange w lo hi = .ok x → Word.rangeByShifts w lo hi = some x) ∧
    (∀ w width x, Word.signExtendFrom w width = .ok x → Word.extendByShifts w width = some x) ∧
    ((∃ b, Sequential.step s = .error b) ↔ ∃ address, s.Astray address) ∧
    ∀ b, Sequential.step s = .error b → b.state = s ∧
      ∃ address, b.fault = .load ⟨address⟩ ∧ s.Astray address := by
  obtain ⟨hcycle, hkept⟩ := fault_iff_of_or (Machine.step_or_astray hm)
    fun _ => Machine.not_astray_of_step
  obtain ⟨hstep, hkept'⟩ := fault_iff_of_or (Sequential.step_or_astray s)
    fun _ => Sequential.not_astray_of_step
  refine ⟨hcycle, hkept, fun x i w hi hw => (Machine.isSound_of_reachable hm hi).dest hw,
    InFlight.checkedDecode_eq, InFlight.checkedExecute_eq, fun w lo hi x h => ?_,
    fun w width x h => ?_, hstep, hkept'⟩
  · rw [Word.rangeByShifts_eq, h]
    rfl
  · rw [Word.extendByShifts_eq, h]
    rfl

/-- A load from behind the end of memory. -/
def loadBeyond : State :=
  { cpu := .reset
    mem := (Memory.zeroed 4).set 0 0x04002083 (by decide) }

/-- It is decoded and executed with all checks made. After three cycles this has been
done, and the next one faults and changes nothing, as its step does. -/
theorem faults_at_loadBeyond :
    (∃ d, loadBeyond.decoded = some d ∧ d.checkedExecute = .ok d.execute) ∧
    ∃ m b b', (Machine.start loadBeyond).after 3 = .ok m ∧ m.step = .error b ∧ b.state = m ∧
      Sequential.step loadBeyond = .error b' ∧ b'.state = loadBeyond ∧
      loadBeyond.effectiveAddress? = some 64 := by
  obtain ⟨m, hm, hp⟩ := Machine.exists_of_after (m := Machine.start loadBeyond) (n := 3)
    (p := fun m => m.slots.execute.any fun e => e.access.any fun x => !m.mem.Holds x.address)
    (by decide)
  obtain ⟨e, he, hp⟩ := (Option.any_eq_true _ _).mp hp
  obtain ⟨x, hx, hp⟩ := (Option.any_eq_true _ _).mp hp
  obtain ⟨hcycle, hkept, -, -, hexecute, -, -, hstep, hkept'⟩ :=
    faults_only_outside (Machine.reachable_of_after rfl hm) loadBeyond
  obtain ⟨b, hb⟩ := hcycle.mpr ⟨_, .access he hx (by simpa using hp)⟩
  have haddr : loadBeyond.effectiveAddress? = some 64 := by decide
  obtain ⟨b', hb'⟩ := hstep.mpr ⟨_, .access haddr (by decide)⟩
  obtain ⟨d, hd⟩ : ∃ d, loadBeyond.decoded = some d := Option.isSome_iff_exists.mp (by decide)
  exact ⟨⟨d, hd, hexecute d⟩, m, b, b', hm, hb, (hkept b hb).1, hb', (hkept' b' hb').1, haddr⟩

end FiveStage
