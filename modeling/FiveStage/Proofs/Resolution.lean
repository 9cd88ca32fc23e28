import Mathlib.Logic.Function.Iterate
import FiveStage.Proofs.Stages

/-
  Resolution — what the hazards make of any slots

  `Hazard.resolve` releases a stall, raises one, and then either forwards or sends
  back, in this order and on one state. Here the same is said of its outcome alone,
  slot by slot and flag by flag, for slots and a cpu that need not be met on the way:
  who has to go back, which of the instructions ahead supplies an operand, and what
  is left of a stall.

  What is proved:
    1. `forward_eq_withOperands` — forwarding supplies each operand on its own, from
       the nearest instruction ahead that writes its register.
    2. `resolve_eq_iff` — `Resolves` says all there is to say of the outcome: what
       meets it is what `resolve` gives.
    3. `Resolves.settled` — an outcome is its own outcome.
    4. `resolve_iterate` — so resolving hazards again changes nothing.
-/

namespace FiveStage

/-- Whether an instruction reads a register: a field names it, and it is not x0. -/
def InFlight.IsSource (d : InFlight) (r : Word) : Prop := r ≠ 0 ∧ ∃ p, d.field p = some r

namespace Hazard

open InFlight (Port)

/-- What the nearest instruction ahead that writes a register is about to write
there. -/
def nearest (slots : Slots) (r : Word) : Option Word :=
  [slots.execute, slots.memory, slots.writeBack].findSome? (writesTo · r)

/-- What an operand has to be: what is about to be written to its register, or else
what it is. Nothing is supplied for x0. -/
def operand (slots : Slots) (d : InFlight) (p : Port) : Word :=
  match d.field p with
  | some r => if r = 0 then d.value p else (nearest slots r).getD (d.value p)
  | none => d.value p

/-- Right ahead is a load that is about to write a register that is read. -/
def WaitsForLoad (slots : Slots) (d : InFlight) : Prop :=
  ∃ e w, slots.execute = some e ∧ e.opcode = some .load ∧ e.result = some w ∧ d.IsSource w.dest

/-- Whether a stall outlasts what has been written back. -/
def staysHeld (slots : Slots) (cpu : Cpu) : Bool := cpu.stall && !controlFlowIn slots.writeBack

/-- What the hazards make of slots and a cpu. Either nothing is decoded, or what is
decoded goes back and the program counter with it, or it stays and has its operands.
The slots behind and the registers are as they were. -/
inductive Resolves (slots : Slots) (cpu : Cpu) : Slots → Cpu → Prop
  | bubble (hd : slots.decode = none) :
    Resolves slots cpu slots { cpu with stall := staysHeld slots cpu }
  | back {d : InFlight} (hd : slots.decode = some d) (hw : WaitsForLoad slots d) :
    Resolves slots cpu
      { slots with
        fetch := some { d with stage := .fetch }
        decode := none }
      { cpu with
        pc := d.pc
        stall := if d.isControlFlow then false else staysHeld slots cpu }
  | kept {d : InFlight} (hd : slots.decode = some d) (hw : ¬WaitsForLoad slots d) :
    Resolves slots cpu
      { slots with
        fetch := if d.isControlFlow then none else slots.fetch
        decode := some (d.withOperands (operand slots d)) }
      { cpu with stall := if d.isControlFlow then true else staysHeld slots cpu }

/-! ## Who supplies an operand -/

/-- A slot supplies an operand if its instruction writes the register. -/
theorem value_supplyFrom_eq (slot : Option InFlight) (i : InFlight) (p : Port) :
    (supplyFrom slot i).value p =
      ((InFlight.nonzeroSource (i.field p)).bind (writesTo slot)).getD (i.value p) := by
  cases hs : InFlight.nonzeroSource (i.field p) with
  | none =>
    unfold supplyFrom
    split
    · rw [value_supply, hs, if_neg nofun]
      rfl
    · rfl
  | some r =>
    obtain ⟨hr, h0⟩ := InFlight.nonzeroSource_eq_some_iff.mp hs
    exact value_supplyFrom hr h0

theorem operand_eq (slots : Slots) (d : InFlight) (p : Port) :
    operand slots d p =
      ((InFlight.nonzeroSource (d.field p)).bind (nearest slots)).getD (d.value p) := by
  unfold operand
  cases d.field p with
  | none => rfl
  | some r =>
    by_cases h0 : r = 0
    · have hs : InFlight.nonzeroSource (some r) = none := by
        rw [h0]
        rfl
      rw [hs]
      exact if_pos h0
    · have hs : InFlight.nonzeroSource (some r) = some r :=
        InFlight.nonzeroSource_eq_some_iff.mpr ⟨rfl, h0⟩
      rw [hs]
      exact if_neg h0

theorem value_forward (slots : Slots) (d : InFlight) (p : Port) :
    (forward slots d).value p = operand slots d p := by
  rw [forward_eq, value_supplyFrom_eq, value_supplyFrom_eq, value_supplyFrom_eq, operand_eq]
  simp only [field_supplyFrom]
  cases InFlight.nonzeroSource (d.field p) with
  | none => rfl
  | some r =>
    -- the slots supply oldest first, so the nearest has the last word
    simp only [Option.bind_some, nearest, List.findSome?]
    cases writesTo slots.execute r with
    | some v => rfl
    | none => cases writesTo slots.memory r <;> cases writesTo slots.writeBack r <;> rfl

/-- Nothing but operands is supplied. -/
theorem exists_supplyFrom_withOperands (slot : Option InFlight) (i : InFlight) (v : Port → Word) :
    ∃ v', supplyFrom slot (i.withOperands v) = i.withOperands v' := by
  refine ⟨(supplyFrom slot (i.withOperands v)).value, ?_⟩
  unfold supplyFrom
  split <;> rfl

theorem forward_eq_withOperands (slots : Slots) (d : InFlight) :
    forward slots d = d.withOperands (operand slots d) := by
  obtain ⟨u, hu⟩ := exists_supplyFrom_withOperands slots.writeBack d d.value
  obtain ⟨v, hv⟩ := exists_supplyFrom_withOperands slots.memory d u
  obtain ⟨w, hw⟩ := exists_supplyFrom_withOperands slots.execute d v
  have hf : forward slots d = d.withOperands w := by
    rw [← hw, ← hv, ← hu]
    exact forward_eq slots d
  have hop : w = operand slots d := by
    funext p
    rw [← value_forward, hf, InFlight.value_withOperands]
  rw [hf, hop]

/-! ## Who goes back -/

theorem reads_eq_true_iff {d : InFlight} {r : Word} : reads d r = true ↔ d.IsSource r := by
  simp only [reads, Bool.or_eq_true, beq_iff_eq, InFlight.source1, InFlight.source2,
    InFlight.nonzeroSource_eq_some_iff, InFlight.IsSource]
  constructor
  · rintro (⟨h, h0⟩ | ⟨h, h0⟩)
    · exact ⟨h0, .rs1, h⟩
    · exact ⟨h0, .rs2, h⟩
  · rintro ⟨h0, p, h⟩
    cases p with
    | rs1 => exact .inl ⟨h, h0⟩
    | rs2 => exact .inr ⟨h, h0⟩

theorem awaitsLoad_eq_true_iff {slots : Slots} {d : InFlight} :
    awaitsLoad slots d = true ↔ WaitsForLoad slots d := by
  rw [InFlight.awaitsLoad_eq, Option.any_eq_true]
  simp only [InFlight.awaits, InFlight.isLoad_iff, Bool.and_eq_true, Option.any_eq_true,
    reads_eq_true_iff]
  constructor
  · rintro ⟨e, he, hl, w, hw, hs⟩
    exact ⟨e, w, he, hl, hw, hs⟩
  · rintro ⟨e, w, he, hl, hw, hs⟩
    exact ⟨e, he, hl, w, hw, hs⟩

theorem awaitsLoad_eq_false_iff {slots : Slots} {d : InFlight} :
    awaitsLoad slots d = false ↔ ¬WaitsForLoad slots d := by
  rw [← awaitsLoad_eq_true_iff, Bool.not_eq_true]

/-! ## The outcome -/

theorem release_eq (slots : Slots) (cpu : Cpu) :
    release slots cpu = { cpu with stall := staysHeld slots cpu } := by
  unfold release staysHeld
  cases controlFlowIn slots.writeBack with
  | true => rw [if_pos rfl, Bool.not_true, Bool.and_false]
  | false => rw [if_neg nofun, Bool.not_false, Bool.and_true]

theorem resolves_resolve (slots : Slots) (cpu : Cpu) :
    Resolves slots cpu (resolve slots cpu).1 (resolve slots cpu).2 := by
  cases hd : slots.decode with
  | none =>
    rw [resolve_of_bubble hd, release_eq]
    exact .bubble hd
  | some d =>
    by_cases hw : WaitsForLoad slots d
    · rw [resolve_of_replay hd (awaitsLoad_eq_true_iff.mpr hw), release_eq]
      exact .back hd hw
    · have hw' := awaitsLoad_eq_false_iff.mpr hw
      have hk : Resolves slots cpu _ _ := .kept hd hw
      cases hi : d.isControlFlow with
      | true =>
        rw [resolve_of_transfer hd hi hw', release_eq, forward_eq_withOperands]
        simpa only [hi, if_true] using hk
      | false =>
        rw [resolve_of_plain hd hi hw', release_eq, forward_eq_withOperands]
        simpa only [hi, Bool.false_eq_true, if_false] using hk

variable {slots slots' : Slots} {cpu cpu' : Cpu}

/-- The three cases exclude each other, and each leaves one outcome. -/
theorem Resolves.unique {slots₁ slots₂ : Slots} {cpu₁ cpu₂ : Cpu}
    (h₁ : Resolves slots cpu slots₁ cpu₁) (h₂ : Resolves slots cpu slots₂ cpu₂) :
    (slots₁, cpu₁) = (slots₂, cpu₂) := by
  cases h₁ with
  | bubble hd =>
    cases h₂ with
    | bubble _ => rfl
    | back hd' _ => exact absurd (hd.symm.trans hd') nofun
    | kept hd' _ => exact absurd (hd.symm.trans hd') nofun
  | back hd hw =>
    cases h₂ with
    | bubble hd' => exact absurd (hd.symm.trans hd') nofun
    | back hd' _ =>
      obtain rfl := Option.some.inj (hd.symm.trans hd')
      rfl
    | kept hd' hn =>
      obtain rfl := Option.some.inj (hd.symm.trans hd')
      exact absurd hw hn
  | kept hd hn =>
    cases h₂ with
    | bubble hd' => exact absurd (hd.symm.trans hd') nofun
    | back hd' hw =>
      obtain rfl := Option.some.inj (hd.symm.trans hd')
      exact absurd hw hn
    | kept hd' _ =>
      obtain rfl := Option.some.inj (hd.symm.trans hd')
      rfl

/-- **The hazards of any slots.** What `resolve` gives for slots and a cpu, whether
or not they can be met on the way, is what `Resolves` says: an instruction goes back
exactly if the one right ahead is a load that is about to write a register it reads;
one that stays has each operand from the nearest instruction ahead that writes its
register, and keeps it if there is none. -/
theorem resolve_eq_iff (slots : Slots) (cpu : Cpu) (slots' : Slots) (cpu' : Cpu) :
    resolve slots cpu = (slots', cpu') ↔ Resolves slots cpu slots' cpu' := by
  constructor
  · intro h
    have hr := resolves_resolve slots cpu
    rwa [h] at hr
  · exact (resolves_resolve slots cpu).unique

/-! ## Once is enough -/

theorem staysHeld_eq_false (h : controlFlowIn slots.writeBack = true) :
    staysHeld slots cpu = false := by
  rw [staysHeld, h, Bool.not_true, Bool.and_false]

theorem staysHeld_eq_stall (h : controlFlowIn slots.writeBack = true → cpu.stall = false) :
    staysHeld slots cpu = cpu.stall := by
  unfold staysHeld
  cases hc : controlFlowIn slots.writeBack with
  | true => rw [h hc, Bool.false_and]
  | false => rw [Bool.not_false, Bool.and_true]

theorem resolves_self_of_bubble (hd : slots.decode = none)
    (hs : controlFlowIn slots.writeBack = true → cpu.stall = false) :
    Resolves slots cpu slots cpu := by
  have hb : Resolves slots cpu _ _ := .bubble hd
  rwa [staysHeld_eq_stall hs] at hb

theorem resolves_self_of_kept {d : InFlight} (hd : slots.decode = some d)
    (hw : ¬WaitsForLoad slots d) (ho : operand slots d = d.value)
    (hf : d.isControlFlow = true → slots.fetch = none)
    (hs : (if d.isControlFlow then true else staysHeld slots cpu) = cpu.stall) :
    Resolves slots cpu slots cpu := by
  have hk : Resolves slots cpu _ _ := .kept hd hw
  have hfetch : (if d.isControlFlow then none else slots.fetch) = slots.fetch := by
    split
    · rename_i hc
      exact (hf hc).symm
    · rfl
  have hdecode : some (d.withOperands d.value) = slots.decode := hd.symm
  rwa [ho, hs, hfetch, hdecode] at hk

/-- Operands that have been supplied are what they have to be. -/
theorem operand_withOperands (slots : Slots) (d : InFlight) :
    operand slots (d.withOperands (operand slots d)) = (d.withOperands (operand slots d)).value := by
  funext p
  rw [operand_eq, InFlight.field_withOperands, InFlight.value_withOperands, operand_eq]
  cases (InFlight.nonzeroSource (d.field p)).bind (nearest slots) <;> rfl

/-- Who has to go back is told by registers, not by operands. -/
theorem waitsForLoad_withOperands {d : InFlight} {v : Port → Word} :
    WaitsForLoad slots (d.withOperands v) ↔ WaitsForLoad slots d := by
  simp only [WaitsForLoad, InFlight.IsSource, InFlight.field_withOperands]

/-- An outcome is its own outcome. -/
theorem Resolves.settled (h : Resolves slots cpu slots' cpu') :
    Resolves slots' cpu' slots' cpu' := by
  cases h with
  | bubble hd => exact resolves_self_of_bubble hd staysHeld_eq_false
  | back hd hw =>
    refine resolves_self_of_bubble rfl fun (hc : controlFlowIn slots.writeBack = true) => ?_
    dsimp only
    rw [staysHeld_eq_false hc, ite_self]
  | @kept d hd hw =>
    refine resolves_self_of_kept rfl (fun hw' => hw (waitsForLoad_withOperands.mp hw'))
      (operand_withOperands slots d) (fun hc => if_pos hc) ?_
    change (if d.isControlFlow then true else _) = _
    dsimp only
    split
    · rfl
    · exact staysHeld_eq_stall staysHeld_eq_false

/-- **Resolving hazards again changes nothing**: not a slot, not the program counter,
not the stall and no register, for any slots and any cpu. -/
theorem resolve_iterate (slots : Slots) (cpu : Cpu) :
    resolve (resolve slots cpu).1 (resolve slots cpu).2 = resolve slots cpu ∧
      ∀ n, 1 ≤ n → (Function.uncurry resolve)^[n] (slots, cpu) = resolve slots cpu := by
  have hr := resolves_resolve slots cpu
  have hfix : resolve (resolve slots cpu).1 (resolve slots cpu).2 = resolve slots cpu :=
    (resolves_resolve _ _).unique hr.settled
  refine ⟨hfix, fun n hn => ?_⟩
  obtain ⟨k, rfl⟩ : ∃ k, n = k + 1 := ⟨n - 1, by omega⟩
  rw [Function.iterate_succ_apply]
  exact Function.iterate_fixed hfix k

end Hazard

end FiveStage
