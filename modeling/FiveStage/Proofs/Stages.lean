import FiveStage.Proofs.Operands

/-
  Stages — what becomes of an instruction on its way

  A record keeps its word, its address, its opcode and its fields from decoding
  on; the stages only add to it. What this module proves about a record is what
  the rest of the pipeline relies on without looking at the instruction:
    1. `accessMemory_cases` — the three ways memory access can go.
    2. `target_eq_none` — only branches and jumps move the program counter.
    3. `supplyFrom_accessMemory` — what an executed instruction is about to write
       is what it does write, unless it is a load and the reader needs the value.
    4. `awaits_execute` — whether an instruction has to wait for the one ahead can
       be read off the two words.
-/

namespace FiveStage

namespace InFlight

/-- Whether a word has an opcode that is supported. -/
def isSupported (w : Word) : Bool := (Opcode.ofWord? w).isSome

/-- Whether a word is a branch or jump. -/
def isTransfer (w : Word) : Bool := (Opcode.ofWord? w).any Opcode.isControlFlow

theorem isSupported_of_isTransfer {w : Word} (h : isTransfer w = true) : isSupported w = true := by
  unfold isTransfer at h
  unfold isSupported
  cases ho : Opcode.ofWord? w with
  | none => simp [ho] at h
  | some o => rfl

/-- No opcode is zero. -/
theorem ne_zero_of_isSupported {w : Word} (h : isSupported w = true) : w ≠ 0 := by
  intro h0
  rw [h0] at h
  exact absurd h (by decide)

theorem ne_zero_of_isTransfer {w : Word} (h : isTransfer w = true) : w ≠ 0 :=
  ne_zero_of_isSupported (isSupported_of_isTransfer h)

/-! ## Decoded records -/

/-- A word with an opcode that was just decoded. -/
structure IsDecoded (d : InFlight) (w pc : Word) (o : Opcode) : Prop where
  raw : d.raw = w
  pc : d.pc = pc
  opcode : d.opcode = some o
  format : d.format = some o.format
  fields : d.fields = Fields.ofWord o.format w
  access : d.access = none
  result : d.result = none

theorem isDecoded_of_decode? {i d : InFlight} {regs : Registers} (h : i.decode? regs = some d) :
    ∃ o, Opcode.ofWord? i.raw = some o ∧ d.IsDecoded i.raw i.pc o := by
  unfold decode? at h
  obtain ⟨o, ho, rfl⟩ := Option.map_eq_some_iff.mp h
  exact ⟨o, ho, ⟨rfl, rfl, rfl, rfl, rfl, rfl, rfl⟩⟩

theorem isSome_decode? (i : InFlight) (regs : Registers) :
    (i.decode? regs).isSome = isSupported i.raw := by
  unfold decode?
  exact Option.isSome_map

theorem exists_decoded {w : Word} {o : Opcode} (pc : Word) (regs : Registers)
    (ho : Opcode.ofWord? w = some o) :
    ∃ d, (fetched w pc).decode? regs = some d ∧ d.IsDecoded w pc o := by
  have hs : ((fetched w pc).decode? regs).isSome = true := by
    rw [isSome_decode?]
    exact Option.isSome_of_eq_some ho
  obtain ⟨d, hd⟩ := Option.isSome_iff_exists.mp hs
  obtain ⟨o', ho', hdec⟩ := isDecoded_of_decode? hd
  obtain rfl := Option.some.inj (ho.symm.trans ho')
  exact ⟨d, hd, hdec⟩

namespace IsDecoded

variable {d : InFlight} {w pc : Word} {o : Opcode}

theorem isControlFlow (h : d.IsDecoded w pc o) : d.isControlFlow = o.isControlFlow := by
  rw [InFlight.isControlFlow, h.opcode, Option.any_some]

theorem effect (h : d.IsDecoded w pc o) : d.effect = d.effectOf o.format o := by
  rw [InFlight.effect, h.opcode, h.format]

end IsDecoded

theorem redirect_effectOf (d : InFlight) {o : Opcode} (h : o.isControlFlow = false) :
    (d.effectOf o.format o).redirect = none := by
  cases o with
  | jal | jalr | branch => exact absurd h nofun
  | lui | auipc => rfl
  | load =>
    show d.loadEffect.redirect = none
    unfold loadEffect
    split <;> rfl
  | store =>
    show d.storeEffect.redirect = none
    unfold storeEffect
    split <;> rfl
  | op =>
    show d.registerEffect.redirect = none
    unfold registerEffect
    split <;> rfl
  | opImm =>
    show d.immediateEffect.redirect = none
    unfold immediateEffect
    split <;> rfl

theorem target_eq_none {d : InFlight} {w pc : Word} {o : Opcode} (h : d.IsDecoded w pc o)
    (ho : o.isControlFlow = false) : d.execute.2 = none := by
  show d.effect.redirect = none
  rw [h.effect, redirect_effectOf d ho]

/-- Memory is accessed by loads and stores of a width there is, at the address that
their operand and offset give. -/
theorem access_effectOf {d : InFlight} {o : Opcode} {x : Access}
    (h : (d.effectOf o.format o).access = some x) :
    (o = .load ∧ ∃ mask signed, loadWidth? d.funct3 = some (mask, signed) ∧
      x = ⟨.load, d.rs1Value + d.offset, 0, mask, signed⟩) ∨
    (o = .store ∧ ∃ kept, storeWidth? d.funct3 = some kept ∧
      x = ⟨.store, d.rs1Value + d.offset, d.rs2Value &&& kept, ~~~kept, false⟩) := by
  cases o with
  | load =>
    change d.loadEffect.access = some x at h
    unfold loadEffect at h
    split at h
    · rename_i mask signed hw
      exact .inl ⟨rfl, mask, signed, hw, (Option.some.inj h).symm⟩
    · exact absurd h nofun
  | store =>
    change d.storeEffect.access = some x at h
    unfold storeEffect at h
    split at h
    · rename_i kept hw
      exact .inr ⟨rfl, kept, hw, (Option.some.inj h).symm⟩
    · exact absurd h nofun
  | op =>
    change d.registerEffect.access = some x at h
    unfold registerEffect at h
    split at h <;> exact absurd h nofun
  | opImm =>
    change d.immediateEffect.access = some x at h
    unfold immediateEffect at h
    split at h <;> exact absurd h nofun
  | branch =>
    change d.branchEffect.access = some x at h
    unfold branchEffect at h
    repeat' split at h
    all_goals exact absurd h nofun
  | lui | auipc | jal | jalr => exact absurd h nofun

/-- Only the opcode of loads prepares a load. -/
theorem opcode_of_load_access {d : InFlight} {o : Opcode} {x : Access}
    (h : (d.effectOf o.format o).access = some x) (hk : x.kind = .load) : o = .load := by
  rcases access_effectOf h with ⟨ho, -⟩ | ⟨-, _, -, rfl⟩
  · exact ho
  · exact absurd hk nofun

/-! ## Memory access -/

theorem accessMemory_cases {e a : InFlight} {mem mem' : Memory}
    (h : e.accessMemory mem = .ok (a, mem')) :
    (e.access = none ∧ a = { e with stage := .memory } ∧ mem' = mem) ∨
    (∃ x w, e.access = some x ∧ x.kind = .load ∧
      a = receiveLoaded { e with stage := .memory } w ∧ mem' = mem) ∨
    (∃ x w, e.access = some x ∧ x.kind = .store ∧ a = { e with stage := .memory } ∧
      mem.store x.address w = .ok mem') := by
  unfold accessMemory at h
  cases hx : e.access with
  | none =>
    simp only [hx, pure, Except.pure, Except.ok.injEq, Prod.mk.injEq] at h
    exact .inl ⟨rfl, h.1.symm, h.2.symm⟩
  | some x =>
    cases hw : x.word mem with
    | error f => simp [hx, hw, bind, Except.bind] at h
    | ok w =>
      cases hk : x.kind with
      | load =>
        simp only [hx, hw, hk, bind, Except.bind, pure, Except.pure, Except.ok.injEq,
          Prod.mk.injEq] at h
        exact .inr (.inl ⟨x, w, rfl, hk, h.1.symm, h.2.symm⟩)
      | store =>
        cases hs : mem.store x.address w with
        | error f => simp [hx, hw, hk, hs, bind, Except.bind] at h
        | ok mem'' =>
          simp only [hx, hw, hk, hs, bind, Except.bind, pure, Except.pure, Except.ok.injEq,
            Prod.mk.injEq] at h
          exact .inr (.inr ⟨x, w, rfl, hk, h.1.symm, h.2 ▸ hs⟩)

theorem opcode_of_accessMemory {e a : InFlight} {mem mem' : Memory}
    (h : e.accessMemory mem = .ok (a, mem')) : a.opcode = e.opcode := by
  rcases accessMemory_cases h with ⟨-, rfl, -⟩ | ⟨_, _, -, -, rfl, -⟩ | ⟨_, _, -, -, rfl, -⟩ <;> rfl

theorem capacity_of_accessMemory {e a : InFlight} {mem mem' : Memory}
    (h : e.accessMemory mem = .ok (a, mem')) : mem'.capacity = mem.capacity := by
  rcases accessMemory_cases h with ⟨-, -, rfl⟩ | ⟨_, _, -, -, -, rfl⟩ | ⟨x, w, -, -, -, hs⟩
  · rfl
  · rfl
  · unfold Memory.store Memory.write at hs
    split at hs
    · obtain rfl := Except.ok.inj hs
      rfl
    · exact absurd hs nofun

theorem opcode_of_writeBack {a j : InFlight} {regs regs' : Registers}
    (h : a.writeBack regs = .ok (j, regs')) : j.opcode = a.opcode := by
  obtain ⟨rfl, -⟩ := writeBack_eq_ok_iff.mp h
  rfl

/-! ## Waiting for a load -/

theorem supply_of_not_reads {i : InFlight} {w : RegWrite} (h : Hazard.reads i w.dest = false) :
    Hazard.supply w i = i := by
  simp only [Hazard.reads, Bool.or_eq_false_iff, beq_eq_false_iff_ne] at h
  simp only [Hazard.supply, if_neg h.1, if_neg h.2]

/-- Whether an instruction has to wait for the one ahead of it. -/
def awaits (ahead i : InFlight) : Bool :=
  ahead.isLoad && ahead.result.any (fun w => Hazard.reads i w.dest)

theorem awaitsLoad_eq (slots : Slots) (i : InFlight) :
    Hazard.awaitsLoad slots i = slots.execute.any (awaits · i) := by
  unfold Hazard.awaitsLoad
  cases slots.execute <;> rfl

/-- What is supplied to an instruction does not change what it reads. -/
@[simp] theorem awaits_supplyFrom (e : InFlight) (slot : Option InFlight) (i : InFlight) :
    awaits e (Hazard.supplyFrom slot i) = awaits e i := by
  unfold Hazard.supplyFrom
  split <;> rfl

/-- An instruction that need not wait is supplied with the same value before and
after the one ahead has accessed memory. -/
theorem supplyFrom_accessMemory {e a i : InFlight} {mem mem' : Memory}
    (h : e.accessMemory mem = .ok (a, mem'))
    (hl : ∀ x, e.access = some x → x.kind = .load → e.isLoad = true)
    (hn : awaits e i = false) :
    Hazard.supplyFrom (some a) i = Hazard.supplyFrom (some e) i := by
  rcases accessMemory_cases h with ⟨-, rfl, -⟩ | ⟨x, w, hx, hk, rfl, -⟩ | ⟨_, _, -, -, rfl, -⟩
  · rfl
  · -- the load replaces a value that nobody reads
    have hr : e.result.any (fun w => Hazard.reads i w.dest) = false := by
      simpa [awaits, hl x hx hk] using hn
    cases hw : e.result with
    | none => simp [Hazard.supplyFrom, receiveLoaded, hw]
    | some v =>
      have hv : Hazard.reads i v.dest = false := by simpa [hw] using hr
      have h1 : Hazard.supply v i = i := supply_of_not_reads hv
      have h2 : Hazard.supply { v with value := w } i = i := supply_of_not_reads hv
      simp [Hazard.supplyFrom, receiveLoaded, hw, h1, h2]
  · rfl

/-- Whether a word is a load that means something and another word reads the
register it loads. -/
def loadUse (w w' : Word) : Bool :=
  match Opcode.ofWord? w, Opcode.ofWord? w' with
  | some .load, some o =>
    (loadWidth? (Fields.funct3Of w)).isSome &&
      (nonzeroSource (Fields.ofWord o.format w').rs1 == some (Fields.rdOf w) ||
        nonzeroSource (Fields.ofWord o.format w').rs2 == some (Fields.rdOf w))
  | _, _ => false

theorem of_loadUse {w w' : Word} (h : loadUse w w' = true) :
    Opcode.ofWord? w = some .load ∧ isSupported w' = true := by
  unfold loadUse at h
  cases ho : Opcode.ofWord? w with
  | none => simp [ho] at h
  | some o =>
    cases ho' : Opcode.ofWord? w' with
    | none => simp [ho, ho'] at h
    | some o' =>
      cases o with
      | load => exact ⟨rfl, by rw [isSupported, ho']; rfl⟩
      | _ => simp [ho, ho'] at h

theorem awaits_execute {d i : InFlight} {w w' pc pc' : Word} {o o' : Opcode}
    (hd : d.IsDecoded w pc o) (ho : Opcode.ofWord? w = some o)
    (hi : i.IsDecoded w' pc' o') (ho' : Opcode.ofWord? w' = some o') :
    awaits d.execute.1 i = loadUse w w' := by
  have hop : d.execute.1.isLoad = (o == .load) := by
    show (d.opcode == some .load) = _
    rw [hd.opcode]
    rfl
  have hres : d.execute.1.result = (d.effectOf o.format o).result := by
    show d.effect.result.or d.result = _
    rw [hd.result, Option.or_none, hd.effect]
  unfold awaits loadUse
  rw [hop, hres, ho, ho']
  cases o with
  | load =>
    have hf : d.funct3 = Fields.funct3Of w := by rw [funct3, hd.fields]; rfl
    have hr : d.rd = Fields.rdOf w := by rw [rd, hd.fields]; rfl
    show (true && d.loadEffect.result.any fun v => Hazard.reads i v.dest) = _
    rw [Bool.true_and, loadEffect, hf]
    cases loadWidth? (Fields.funct3Of w) with
    | none => rfl
    | some width => simp [Hazard.reads, source1, source2, hi.fields, hr]
  | _ => rfl

end InFlight

end FiveStage
