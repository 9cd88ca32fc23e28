import FiveStage.Proofs.Bits
import FiveStage.Proofs.Cycle

/-
  Operands — where the values of a decoded instruction come from

  Decoding samples the register file as it stood before the same cycle's
  write-back; the three instructions ahead then supply what they are about to
  write. The two steps have one rule: supplying a register write to a decoded
  instruction gives what decoding after that write would have given.

  What is proved:
    1. `decode?_write` — that rule, for every word, register file and write.
    2. `forward_eq` — forwarding is the three slots supplying in turn, oldest
       first, so the youngest writer of a register has the last word.
    3. `operand_of_reachable` — on every machine that can be met on the way, an
       operand is what the youngest instruction ahead writes to its register, and
       the register's contents if none does; and a load that has not read memory
       is never ahead of an instruction that needs its value.
-/

namespace FiveStage

namespace Registers

theorem nameOf_of_lt {index : Word} (h : index.toNat < 32) :
    nameOf index = .ok (index.setWidth 5) := by
  rw [nameOf, if_pos h]

theorem write_eq_ok_iff {x y : Registers} {index v : Word} :
    x.write index v = .ok y ↔ index.toNat < 32 ∧ y = x.set (index.setWidth 5) v := by
  by_cases h : index.toNat < 32
  · simp [write, nameOf, h, Except.map, eq_comm]
  · simp [write, nameOf, h, Except.map]

/-- Words that name registers name different ones if they differ. -/
theorem name_inj {a b : Word} (ha : a.toNat < 32) (hb : b.toNat < 32)
    (h : a.setWidth 5 = b.setWidth 5) : a = b := by
  apply BitVec.eq_of_toNat_eq
  have hn := congrArg BitVec.toNat h
  simp only [BitVec.toNat_setWidth] at hn
  omega

end Registers

namespace InFlight

/-- The two operands of an instruction. -/
inductive Port where
  | rs1 | rs2

/-- The register an operand is read from, where the format has one. -/
def field (i : InFlight) : Port → Option Word
  | .rs1 => i.fields.rs1
  | .rs2 => i.fields.rs2

def value (i : InFlight) : Port → Word
  | .rs1 => i.rs1Value
  | .rs2 => i.rs2Value

/-- The record with other operands. -/
def withOperands (i : InFlight) (v : Port → Word) : InFlight :=
  { i with rs1Value := v .rs1, rs2Value := v .rs2 }

@[simp] theorem value_withOperands (i : InFlight) (v : Port → Word) :
    (i.withOperands v).value = v := by
  funext p
  cases p <;> rfl

@[simp] theorem field_withOperands (i : InFlight) (v : Port → Word) (p : Port) :
    (i.withOperands v).field p = i.field p := by
  cases p <;> rfl

theorem nonzeroSource_eq_some_iff {r : Option Word} {d : Word} :
    nonzeroSource r = some d ↔ r = some d ∧ d ≠ 0 := by
  simp [nonzeroSource, Option.filter_eq_some_iff]

/-- A source field sampled after a register write. -/
theorem sample_write {regs regs' : Registers} {w : RegWrite} {r : Option Word}
    (hr : ∀ d, r = some d → d.toNat < 32) (hw : regs.write w.dest w.value = .ok regs') :
    sample regs' r = if nonzeroSource r = some w.dest then w.value else sample regs r := by
  obtain ⟨hd, rfl⟩ := Registers.write_eq_ok_iff.mp hw
  cases r with
  | none => rfl
  | some d =>
    have hlt := hr d rfl
    by_cases h0 : w.dest = 0
    · -- a write to x0 is dropped, and no operand is read from x0
      have hn : nonzeroSource (some d) ≠ some w.dest := fun h =>
        (nonzeroSource_eq_some_iff.mp h).2 h0
      have hz : w.dest.setWidth 5 = 0 := by rw [h0]; rfl
      rw [if_neg hn, hz, Registers.set_zero]
    · -- five bits are enough to tell the registers apart
      by_cases he : d = w.dest
      · have hs : nonzeroSource (some d) = some w.dest :=
          nonzeroSource_eq_some_iff.mpr ⟨by rw [he], h0⟩
        have hne : w.dest.setWidth 5 ≠ 0 := fun h => h0 (Registers.name_inj hd (by decide) h)
        rw [if_pos hs, he]
        exact Registers.get_set_self _ hne _
      · have hs : nonzeroSource (some d) ≠ some w.dest := fun h =>
          he (Option.some.inj (nonzeroSource_eq_some_iff.mp h).1)
        have hne : w.dest.setWidth 5 ≠ d.setWidth 5 := fun h =>
          he (Registers.name_inj hd hlt h).symm
        rw [if_neg hs]
        exact Registers.get_set_of_ne _ hne _

/-- Decoding after a register write is decoding before it, with the written value
supplied. -/
theorem decode?_write (i : InFlight) {regs regs' : Registers} {w : RegWrite}
    (hw : regs.write w.dest w.value = .ok regs') :
    i.decode? regs' = (i.decode? regs).map (Hazard.supply w) := by
  unfold decode?
  cases ho : Opcode.ofWord? i.raw with
  | none => rfl
  | some o =>
    have h1 := sample_write (r := (Fields.ofWord o.format i.raw).rs1) (fun _ => Fields.rs1_lt) hw
    have h2 := sample_write (r := (Fields.ofWord o.format i.raw).rs2) (fun _ => Fields.rs2_lt) hw
    simp only [Option.map_some, Hazard.supply, source1, source2, h1, h2]
    rfl

end InFlight

namespace Hazard

/-! ## Supplying operands -/

/-- The decoded instruction with what a slot is about to write. -/
def supplyFrom (slot : Option InFlight) (i : InFlight) : InFlight :=
  match slot.bind InFlight.result with
  | some w => supply w i
  | none => i

theorem forward_eq (slots : Slots) (i : InFlight) :
    forward slots i
      = supplyFrom slots.execute (supplyFrom slots.memory (supplyFrom slots.writeBack i)) := by
  cases hw : slots.writeBack.bind InFlight.result <;>
    cases hm : slots.memory.bind InFlight.result <;>
      cases he : slots.execute.bind InFlight.result <;>
        simp [forward, pending, supplyFrom, List.filterMap, hw, hm, he]

/-- What a slot is about to write to a register, if it writes it. -/
def writesTo (slot : Option InFlight) (r : Word) : Option Word :=
  slot.bind fun i => i.result.bind fun w => if w.dest = r then some w.value else none

@[simp] theorem field_supplyFrom (slot : Option InFlight) (i : InFlight) (p : InFlight.Port) :
    (supplyFrom slot i).field p = i.field p := by
  unfold supplyFrom
  split <;> cases p <;> rfl

theorem value_supply (w : RegWrite) (i : InFlight) (p : InFlight.Port) :
    (supply w i).value p
      = if InFlight.nonzeroSource (i.field p) = some w.dest then w.value else i.value p := by
  cases p <;> rfl

theorem value_supplyFrom {slot : Option InFlight} {i : InFlight} {p : InFlight.Port} {r : Word}
    (hr : i.field p = some r) (h0 : r ≠ 0) :
    (supplyFrom slot i).value p = (writesTo slot r).getD (i.value p) := by
  have hs : InFlight.nonzeroSource (i.field p) = some r :=
    InFlight.nonzeroSource_eq_some_iff.mpr ⟨hr, h0⟩
  cases slot with
  | none => rfl
  | some a =>
    cases hw : a.result with
    | none => simp [supplyFrom, writesTo, hw]
    | some w =>
      by_cases hd : w.dest = r
      · simp [supplyFrom, writesTo, hw, value_supply, hs, hd]
      · simp [supplyFrom, writesTo, hw, value_supply, hs, hd, Ne.symm hd]

theorem value_supplyFrom_zero {slot : Option InFlight} {i : InFlight} {p : InFlight.Port}
    (hr : i.field p = some 0) : (supplyFrom slot i).value p = i.value p := by
  have hs : InFlight.nonzeroSource (i.field p) = none := by
    rw [hr]
    rfl
  unfold supplyFrom
  split
  · rw [value_supply, hs, if_neg nofun]
  · rfl

end Hazard

namespace InFlight

/-! ## Operands as decoded -/

theorem value_of_decode? {i d : InFlight} {regs : Registers} (h : i.decode? regs = some d)
    (p : Port) : d.value p = sample regs (d.field p) := by
  unfold decode? at h
  obtain ⟨o, -, rfl⟩ := Option.map_eq_some_iff.mp h
  cases p <;> rfl

theorem field_lt_of_decode? {i d : InFlight} {regs : Registers} (h : i.decode? regs = some d)
    {p : Port} {r : Word} (hr : d.field p = some r) : r.toNat < 32 := by
  unfold decode? at h
  obtain ⟨o, -, rfl⟩ := Option.map_eq_some_iff.mp h
  cases p with
  | rs1 => exact Fields.rs1_lt hr
  | rs2 => exact Fields.rs2_lt hr

theorem writeBack_eq_ok_iff {i j : InFlight} {regs regs' : Registers} :
    i.writeBack regs = .ok (j, regs') ↔
      j = { i with stage := .writeBack } ∧
        (i.result = none ∧ regs' = regs ∨
          ∃ w, i.result = some w ∧ regs.write w.dest w.value = .ok regs') := by
  unfold writeBack
  cases hw : i.result with
  | none => simp [pure, Except.pure, eq_comm]
  | some w =>
    cases hr : regs.write w.dest w.value with
    | error e => simp [bind, Except.bind, hr]
    | ok x => simp [bind, Except.bind, hr, pure, Except.pure, eq_comm]

/-- What is decoded after a write-back is what was decoded before it, supplied by
the instruction written back. -/
theorem decode?_writeBack {i j : InFlight} {regs regs' : Registers}
    (h : i.writeBack regs = .ok (j, regs')) (f : InFlight) :
    f.decode? regs' = (f.decode? regs).map (Hazard.supplyFrom (some j)) := by
  obtain ⟨rfl, ⟨hn, rfl⟩ | ⟨w, hw, hr⟩⟩ := writeBack_eq_ok_iff.mp h
  · cases f.decode? regs' <;> simp [Hazard.supplyFrom, hn]
  · rw [decode?_write f hr]
    cases f.decode? regs <;> simp [Hazard.supplyFrom, hw]

end InFlight

namespace Machine

/-- The value of a register as the decoded instruction has to see it: what the
youngest instruction ahead is about to write to it, else what it holds. -/
def operand (m : Machine) (r : Word) : Except Fault Word :=
  if r = 0 then .ok 0
  else
    match Hazard.writesTo m.slots.execute r, Hazard.writesTo m.slots.memory r with
    | some v, _ => .ok v
    | none, some v => .ok v
    | none, none => m.cpu.regs.read r

theorem decode?_retiring {m : Machine} {r : Option InFlight × Registers} (h : m.retiring = .ok r)
    (f : InFlight) : f.decode? r.2 = (f.decode? m.cpu.regs).map (Hazard.supplyFrom r.1) := by
  unfold retiring at h
  cases hm : m.slots.memory with
  | none =>
    rw [hm] at h
    obtain rfl := Except.ok.inj h
    cases f.decode? m.cpu.regs <;> simp [Hazard.supplyFrom]
  | some i =>
    rw [hm] at h
    cases hw : i.writeBack m.cpu.regs with
    | error e => simp [hw, Except.map] at h
    | ok b =>
      simp only [hw, Except.map, Except.ok.injEq] at h
      subst h
      exact InFlight.decode?_writeBack hw f

/-- The hard part of the operand law: it holds after any cycle, whatever the
machine was before. -/
theorem operand_of_step {m m' : Machine} (h : m.step = .ok m') {d : InFlight}
    (hd : m'.slots.decode = some d) {p : InFlight.Port} {r : Word} (hr : d.field p = some r) :
    m'.operand r = .ok (d.value p) := by
  obtain ⟨f, a, b, -, -, hb, rfl⟩ := step_eq_ok_iff.mp h
  obtain ⟨hex, hme, -, hre⟩ := assembled_back m f a b
  obtain ⟨i, hi, -, rfl⟩ := assembled_decode hd
  obtain ⟨fetched, -, hdec⟩ := Option.bind_eq_some_iff.mp hi
  rw [Hazard.forward_eq] at hr ⊢
  simp only [Hazard.field_supplyFrom] at hr
  -- the oldest of the three has just been written back, so it is in the registers
  have hsup : fetched.decode? b.2 = some (Hazard.supplyFrom b.1 i) := by
    rw [decode?_retiring hb, hdec, Option.map_some]
  have hread : b.2.read r = .ok ((Hazard.supplyFrom b.1 i).value p) := by
    have hlt := InFlight.field_lt_of_decode? hsup (p := p) (by simpa using hr)
    rw [InFlight.value_of_decode? hsup, Hazard.field_supplyFrom, hr, Registers.read,
      Registers.nameOf_of_lt hlt]
    rfl
  show _ = Except.ok (InFlight.value
    (Hazard.supplyFrom m.executing (Hazard.supplyFrom a.1 (Hazard.supplyFrom b.1 i))) p)
  unfold operand
  rw [hex, hme, hre]
  by_cases h0 : r = 0
  · subst h0
    rw [Hazard.value_supplyFrom_zero (by simpa using hr),
      Hazard.value_supplyFrom_zero (by simpa using hr), if_pos rfl, ← hread]
    exact congrArg Except.ok (Registers.get_zero _).symm
  · rw [Hazard.value_supplyFrom (by simpa using hr) h0,
      Hazard.value_supplyFrom (by simpa using hr) h0, if_neg h0]
    cases Hazard.writesTo m.executing r with
    | some v => rfl
    | none => cases Hazard.writesTo a.1 r <;> first | rfl | exact hread

/-- A load that has not read memory is not ahead of an instruction that reads
what it loads. -/
theorem not_reads_of_step {m m' : Machine} (h : m.step = .ok m') {d e : InFlight} {w : RegWrite}
    (hd : m'.slots.decode = some d) (he : m'.slots.execute = some e) (hl : e.isLoad = true)
    (hw : e.result = some w) (p : InFlight.Port) : d.field p = some w.dest → w.dest = 0 := by
  obtain ⟨f, a, b, -, -, -, rfl⟩ := step_eq_ok_iff.mp h
  obtain ⟨i, -, hno, rfl⟩ := assembled_decode hd
  rw [(assembled_back m f a b).1] at he
  simp only [Hazard.awaitsLoad, shifted, he, hl, hw, Bool.true_and, Option.any_some,
    Hazard.reads, Bool.or_eq_false_iff, beq_eq_false_iff_ne] at hno
  intro hf
  rw [Hazard.forward_eq] at hf
  simp only [Hazard.field_supplyFrom] at hf
  apply Decidable.byContradiction
  intro h0
  have hs : InFlight.nonzeroSource (i.field p) = some w.dest :=
    InFlight.nonzeroSource_eq_some_iff.mpr ⟨hf, h0⟩
  cases p with
  | rs1 => exact hno.1 hs
  | rs2 => exact hno.2 hs

/-- An operand of the decoded instruction is what the youngest instruction ahead
writes to its register, else the register's contents; and that is never the
placeholder of a load. -/
theorem operand_of_reachable {m : Machine} (hm : Reachable m) {d : InFlight}
    (hd : m.slots.decode = some d) :
    (∀ p r, d.field p = some r → m.operand r = .ok (d.value p)) ∧
      ∀ p e w, m.slots.execute = some e → e.isLoad = true → e.result = some w → w.dest ≠ 0 →
        d.field p ≠ some w.dest := by
  cases hm with
  | start h => exact absurd hd nofun
  | step hm h =>
    refine ⟨fun p r hr => operand_of_step h hd hr, ?_⟩
    intro p e w he hl hw h0 hf
    exact h0 (not_reads_of_step h hd he hl hw p hf)

/-- A load of the word 21 into x1, and an addition of x1 to itself right behind it. -/
def loadThenAdd : State :=
  { cpu := .reset
    mem := (((Memory.zeroed 8).set 0 0x01002083 (by decide)).set 1 0x00108133 (by decide)).set 4 21
      (by decide) }

/-- After its replay the addition has both operands from the load ahead of it,
while x1 itself still holds zero. -/
theorem operand_of_loadThenAdd :
    ∃ m d, Reachable m ∧ m.slots.decode = some d ∧ d.field .rs2 = some 1 ∧
      m.cpu.regs.read 1 = .ok 0 ∧ m.operand 1 = .ok (d.value .rs2) ∧ d.value .rs2 = 21 := by
  cases h : (start loadThenAdd).after 4 with
  | error b =>
    have hok : ((start loadThenAdd).after 4).toBool = true := by decide
    rw [h] at hok
    exact absurd hok nofun
  | ok m =>
    have hm : Reachable m := reachable_of_after rfl h
    have hs : ((start loadThenAdd).after 4).toOption.map (fun m => (m.slots.decode.map fun d =>
        (d.field .rs2, d.value .rs2), m.cpu.regs.get 1)) = some (some (some 1, 21), 0) := by decide
    rw [h] at hs
    simp only [Except.toOption, Option.map_some, Option.some.injEq, Prod.mk.injEq] at hs
    obtain ⟨d, hd, hv⟩ := Option.map_eq_some_iff.mp hs.1
    simp only [Prod.mk.injEq] at hv
    refine ⟨m, d, hm, hd, hv.1, ?_, (operand_of_reachable hm hd).1 .rs2 1 hv.1, hv.2⟩
    exact congrArg Except.ok hs.2

end Machine

end FiveStage
