import FiveStage.Proofs.Isolation

/-
  Effects — what an instruction asks of registers and memory

  Execution names a register to write and an address to read or write. Each could be
  refused later on: a number can name no register, a loaded value can be extended from
  a width that has no sign bit. Here it is shown that neither is ever asked for, so that
  what remains is the address.

  What is proved:
    1. `result_effectOf`, `access_effectOf` — execution writes the register that the
       word names, and accesses memory for a load or store of a width there is.
    2. `isSound_of_reachable` — whatever is in flight on a machine that can be met on
       the way is `Sound`: the later stages can refuse nothing but its address.
-/

namespace FiveStage

/-! ## What execution prepares -/

namespace InFlight

theorem IsDecoded.rd_lt {d : InFlight} {w pc : Word} {o : Opcode} (h : d.IsDecoded w pc o) :
    d.rd.toNat < 32 := by
  rw [rd, h.fields]
  cases hr : (Fields.ofWord o.format w).rd with
  | none => decide
  | some r => exact Fields.rd_lt hr

/-- The register that is written is the one the word names. -/
theorem result_effectOf {d : InFlight} {o : Opcode} {w : RegWrite}
    (h : (d.effectOf o.format o).result = some w) : w.dest = d.rd := by
  cases o with
  | lui | auipc | jal | jalr => exact Option.some.inj h ▸ rfl
  | load =>
    change d.loadEffect.result = some w at h
    unfold loadEffect at h
    split at h
    · exact Option.some.inj h ▸ rfl
    · exact absurd h nofun
  | store =>
    change d.storeEffect.result = some w at h
    unfold storeEffect at h
    split at h <;> exact absurd h nofun
  | op =>
    change d.registerEffect.result = some w at h
    unfold registerEffect at h
    split at h
    · exact Option.some.inj h ▸ rfl
    · exact absurd h nofun
  | opImm =>
    change d.immediateEffect.result = some w at h
    unfold immediateEffect at h
    split at h
    · exact Option.some.inj h ▸ rfl
    · exact absurd h nofun
  | branch =>
    change d.branchEffect.result = some w at h
    unfold branchEffect at h
    repeat' split at h
    all_goals exact absurd h nofun

theorem popcount_of_loadWidth? {funct3 mask : Word} {signed : Bool}
    (h : loadWidth? funct3 = some (mask, signed)) :
    1 ≤ Word.popcount mask ∧ Word.popcount mask ≤ 32 := by
  unfold loadWidth? at h
  split at h
  all_goals simp only [reduceCtorEq, Option.some.injEq, Prod.mk.injEq] at h
  all_goals
    rw [← h.1]
    decide

/-- What the instruction asks of the stages ahead of it can be refused for its
address only: it writes a register there is and keeps bits up to a sign bit. -/
structure Sound (i : InFlight) : Prop where
  dest : ∀ {w : RegWrite}, i.result = some w → w.dest.toNat < 32
  width : ∀ {x : Access}, i.access = some x → x.kind = .load →
    1 ≤ Word.popcount x.mask ∧ Word.popcount x.mask ≤ 32

theorem isSound_of_nothing {i : InFlight} (ha : i.access = none) (hr : i.result = none) : i.Sound :=
  { dest := fun h => absurd (hr.symm.trans h) nofun
    width := fun h => absurd (ha.symm.trans h) nofun }

theorem IsDecoded.isSound {d : InFlight} {w pc : Word} {o : Opcode} (h : d.IsDecoded w pc o) :
    d.Sound :=
  isSound_of_nothing h.access h.result

theorem IsDecoded.access_execute {d : InFlight} {w pc : Word} {o : Opcode}
    (h : d.IsDecoded w pc o) : d.execute.1.access = (d.effectOf o.format o).access := by
  show d.effect.access.or d.access = _
  rw [h.access, Option.or_none, h.effect]

theorem IsDecoded.result_execute {d : InFlight} {w pc : Word} {o : Opcode}
    (h : d.IsDecoded w pc o) : d.execute.1.result = (d.effectOf o.format o).result := by
  show d.effect.result.or d.result = _
  rw [h.result, Option.or_none, h.effect]

theorem IsDecoded.redirect_execute {d : InFlight} {w pc : Word} {o : Opcode}
    (h : d.IsDecoded w pc o) : d.execute.2 = (d.effectOf o.format o).redirect := by
  show d.effect.redirect = _
  rw [h.effect]

theorem IsDecoded.isSound_execute {d : InFlight} {w pc : Word} {o : Opcode}
    (h : d.IsDecoded w pc o) : d.execute.1.Sound := by
  constructor
  · intro v hv
    rw [h.result_execute] at hv
    rw [result_effectOf hv]
    exact h.rd_lt
  · intro x hx hk
    rw [h.access_execute] at hx
    rcases access_effectOf hx with ⟨-, mask, signed, hw, rfl⟩ | ⟨-, _, -, rfl⟩
    · exact popcount_of_loadWidth? hw
    · exact absurd hk nofun

/-- Memory access changes the value to be written, not the register. -/
theorem Sound.accessMemory {e a : InFlight} {mem mem' : Memory} (h : e.Sound)
    (ha : e.accessMemory mem = .ok (a, mem')) : a.Sound := by
  rcases accessMemory_cases ha with ⟨-, rfl, -⟩ | ⟨x, w, -, -, rfl, -⟩ | ⟨_, _, -, -, rfl, -⟩
  · exact ⟨h.dest, h.width⟩
  · refine ⟨fun {v} hv => ?_, h.width⟩
    obtain ⟨v', hv', rfl⟩ := Option.map_eq_some_iff.mp hv
    exact h.dest (w := v') hv'
  · exact ⟨h.dest, h.width⟩

theorem Sound.writeBack {a r : InFlight} {regs regs' : Registers} (h : a.Sound)
    (hw : a.writeBack regs = .ok (r, regs')) : r.Sound := by
  obtain ⟨rfl, -⟩ := writeBack_eq_ok_iff.mp hw
  exact ⟨h.dest, h.width⟩

end InFlight

namespace Machine

variable {m m' : Machine}

/-! ## Whatever is in flight -/

/-- Nothing has been prepared for what is in the first slot: it was fetched, or
decoded and sent back. -/
theorem isSound_fetch_of_step (hm : Reachable m) (h : m.step = .ok m') {i : InFlight}
    (hi : m'.slots.fetch = some i) : i.Sound := by
  cases moves_of_reachable hm h with
  | held hs hf => exact absurd (hf.symm.trans hi) nofun
  | back d hs hr hw hd hf =>
    obtain ⟨g, -, hdec⟩ := Option.bind_eq_some_iff.mp hd
    obtain ⟨o, -, hdec⟩ := InFlight.isDecoded_of_decode? hdec
    obtain rfl := Option.some.inj (hf.symm.trans hi)
    exact InFlight.isSound_of_nothing hdec.access hdec.result
  | transfer hs hr hw hf => exact absurd (hf.symm.trans hi) nofun
  | flow f hs hr hw hfetch hf =>
    rw [← hf, hi] at hfetch
    obtain ⟨raw, rfl⟩ := InFlight.exists_fetched_of_fetch hfetch
    exact InFlight.isSound_of_nothing rfl rfl

theorem isSound_of_reachable (hm : Reachable m) {x : Stage} {i : InFlight}
    (hi : m.slots.at x = some i) : i.Sound := by
  induction hm generalizing x i with
  | start h => cases x <;> exact absurd hi nofun
  | step hm h ih =>
    have hm' : Reachable _ := .step hm h
    obtain ⟨f, a, r, -, ha, hr, rfl⟩ := step_eq_ok_iff.mp h
    obtain ⟨-, hmem, hwb, -⟩ := assembled_back _ f a r
    cases x with
    | fetch => exact isSound_fetch_of_step hm h hi
    | decode =>
      obtain ⟨o, -, hdec⟩ := isDecoded_of_reachable hm' hi
      exact hdec.isSound
    | execute =>
      obtain ⟨d, o, hdec, rfl⟩ := executed_of_reachable hm' hi
      exact hdec.isSound_execute
    | memory =>
      have hi := hmem.symm.trans hi
      rcases accessing_cases ha with ⟨-, rfl⟩ | ⟨e, i, mem, he, hacc, rfl⟩
      · exact absurd hi nofun
      · obtain rfl := Option.some.inj hi
        exact (ih (x := .execute) he).accessMemory hacc
    | writeBack =>
      have hi := hwb.symm.trans hi
      rcases retiring_cases hr with ⟨-, rfl⟩ | ⟨a', i, regs, he, hret, rfl⟩
      · exact absurd hi nofun
      · obtain rfl := Option.some.inj hi
        exact (ih (x := .memory) he).writeBack hret

end Machine

end FiveStage
