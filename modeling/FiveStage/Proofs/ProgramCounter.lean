import FiveStage.Proofs.Isolation

/-
  The program counter — where it stands, and how a cycle moves it

  Three places write the program counter in a cycle: execution, the replay of an
  instruction that waits for a load, and the advance past what was fetched, which
  looks only at whether the program counter still is where fetching has read. Two
  of them could meet by coincidence, as when a jump leads to the word behind it.
  They never do: fetching is held when a branch or jump executes, and a replayed
  instruction stands right in front of the program counter.

  What is proved:
    1. `IsDecoded.redirect_eq` — execution moves the program counter for a jump and
       for a branch whose condition holds, to the target, and for nothing else.
    2. `inLine_step` — the program counter stands right behind the first slot, and
       instructions in neighbouring slots are neighbours in memory.
    3. `pc_of_reachable` — so a cycle moves the program counter to the target, past
       what has been fetched, or not at all.
-/

namespace FiveStage

namespace InFlight

/-! ## Where branches and jumps lead -/

/-- A jump, or a branch whose condition holds. -/
def isTaken (i : InFlight) : Bool :=
  match i.opcode with
  | some .jal | some .jalr => true
  | some .branch => (AluOp.ofBranch? i.funct3).any fun op => op.eval i.rs1Value i.rs2Value != 0
  | _ => false

/-- Where a branch or jump leads if it is taken. -/
def target (i : InFlight) : Word :=
  match i.opcode with
  | some .jal => i.pc + Word.signExtend i.imm 20
  | some .jalr => i.rs1Value + i.offset
  | _ => i.pc + i.offset

theorem IsDecoded.redirect_eq {d : InFlight} {w pc : Word} {o : Opcode} (h : d.IsDecoded w pc o) :
    d.execute.2 = if d.isTaken then some d.target else none := by
  show d.effect.redirect = _
  rw [h.effect]
  unfold isTaken target
  rw [h.opcode]
  cases o with
  | jal | jalr => rfl
  | branch =>
    show d.branchEffect.redirect = _
    unfold branchEffect
    cases AluOp.ofBranch? d.funct3 with
    | none => rfl
    | some op =>
      show (if op.eval d.rs1Value d.rs2Value = 0 then Effect.nothing else _).redirect =
        if op.eval d.rs1Value d.rs2Value != 0 then _ else none
      by_cases h0 : op.eval d.rs1Value d.rs2Value = 0
      · rw [if_pos h0, if_neg (by simpa using h0)]
        rfl
      · rw [if_neg h0, if_pos (bne_iff_ne.mpr h0)]
  | lui | auipc | load | store | op | opImm => exact redirect_effectOf d rfl

end InFlight

namespace Machine

variable {m m' : Machine}

/-! ## Neighbours -/

/-- Instructions follow one another in memory as they do in the slots, and the
program counter follows the youngest. -/
structure InLine (m : Machine) : Prop where
  front : ∀ {i : InFlight}, m.slots.fetch = some i → m.cpu.stall = false ∧ m.cpu.pc = i.pc + 4
  adjacent : ∀ {x y : Stage} {i j : InFlight}, y.number = x.number + 1 →
    m.slots.at x = some i → m.slots.at y = some j → i.pc = j.pc + 4

/-- The occupant of a slot was in the slot before. -/
theorem exists_occupant_before (h : m.step = .ok m') {x y : Stage} {j : InFlight}
    (hy : y.number = x.number + 1) (hj : m'.slots.at y = some j) :
    ∃ i, m.slots.at x = some i ∧ i.pc = j.pc := by
  by_cases hx : x = .fetch
  · subst hx
    obtain rfl : y = .decode := Stage.number_inj hy
    obtain ⟨g, o, hg, -, hdec⟩ := decode_of_step h hj
    exact ⟨g, hg, hdec.pc.symm⟩
  · have hp := InFlight.pc_of_asDecoded (at_succ_of_step h hx hy)
    rw [hj] at hp
    exact Option.map_eq_some_iff.mp hp.symm

theorem inLine_start (s : State) : (start s).InLine :=
  { front := nofun
    adjacent := by
      intro x y i j _ hi
      cases x <;> exact absurd hi nofun }

theorem inLine_step (hm : Reachable m) (hl : m.InLine) (h : m.step = .ok m') : m'.InLine := by
  have hmv := moves_of_reachable hm h
  constructor
  · intro i hi
    cases hmv with
    | held hs hf hd hpc hst => exact absurd (hf.symm.trans hi) nofun
    | back d hs hr hw hd' hf hd hpc hst =>
      obtain rfl := Option.some.inj (hf.symm.trans hi)
      exact ⟨hst, hpc⟩
    | transfer hs hr hw hf hd hpc hst => exact absurd (hf.symm.trans hi) nofun
    | flow f hs hr hw hfetch hf hd hpc hst =>
      obtain rfl := hf.symm.trans hi
      rw [hpc, if_neg nofun, InFlight.pc_of_fetch hfetch]
      exact ⟨hst, rfl⟩
  · intro x y i j hy hi hj
    obtain ⟨j₀, hj₀, hpj⟩ := exists_occupant_before h hy hj
    by_cases hx : x = .fetch
    · subst hx
      obtain rfl : y = .decode := Stage.number_inj hy
      -- what was fetched was fetched right behind what was decoded
      cases hmv with
      | held hs hf hd hpc hst => exact absurd (hf.symm.trans hi) nofun
      | back d hs hr hw hd' hf hd hpc hst => exact absurd (hd.symm.trans hj) nofun
      | transfer hs hr hw hf hd hpc hst => exact absurd (hf.symm.trans hi) nofun
      | flow f hs hr hw hfetch hf hd hpc hst =>
        obtain rfl := hf.symm.trans hi
        rw [InFlight.pc_of_fetch hfetch, ← hpj]
        exact (hl.front hj₀).2
    · obtain ⟨z, hz⟩ := Stage.exists_pred (Nat.pos_of_ne_zero fun h0 => hx (Stage.number_inj h0))
      obtain ⟨i₀, hi₀, hpi⟩ := exists_occupant_before h hz hi
      rw [← hpi, ← hpj]
      exact hl.adjacent hz hi₀ hj₀

theorem inLine_of_reachable (hm : Reachable m) : m.InLine := by
  induction hm with
  | start h => exact inLine_start _
  | step hm h ih => exact inLine_step hm ih h

/-! ## How it moves -/

/-- What execution does to the program counter, by the instruction that leaves the
second slot. -/
theorem redirecting_of_taken (hm : Reachable m) {d : InFlight} (hd : m.slots.decode = some d) :
    m.redirecting = if d.isTaken then some d.target else none := by
  obtain ⟨o, -, hdec⟩ := isDecoded_of_reachable hm hd
  rw [redirecting, hd]
  exact hdec.redirect_eq

theorem moves_of_taken (hm : Reachable m) (h : m.step = .ok m') {d : InFlight}
    (hd : m.slots.decode = some d) (ht : d.isTaken = true) :
    m'.cpu.pc = d.target ∧ m'.slots.fetch = none ∧ m'.slots.decode = none := by
  have hr := redirecting_of_taken hm hd
  rw [ht, if_pos rfl] at hr
  cases moves_of_reachable hm h with
  | held hs hf hd' hpc hst =>
    rw [hpc, hr]
    exact ⟨rfl, hf, hd'⟩
  | back i hs hr' => exact absurd (hr.symm.trans hr') nofun
  | transfer hs hr' => exact absurd (hr.symm.trans hr') nofun
  | flow f hs hr' => exact absurd (hr.symm.trans hr') nofun

/-- Without a branch or jump that is taken the program counter moves past what has
been fetched, if it is kept. -/
theorem moves_of_not_taken (hm : Reachable m) (h : m.step = .ok m') (hr : m.redirecting = none) :
    (m.replays = true ∨ m'.slots.fetch = none ∨ m.cpu.stall = true) ∧ m'.cpu.pc = m.cpu.pc ∨
      (m.replays = false ∧ m.cpu.stall = false) ∧
        ∃ i, m'.slots.fetch = some i ∧ i.pc = m.cpu.pc ∧ m'.cpu.pc = m.cpu.pc + 4 := by
  cases moves_of_reachable hm h with
  | held hs hf hd hpc hst =>
    rw [hr] at hpc
    exact .inl ⟨.inr (.inl hf), hpc⟩
  | back i hs hr' hw hi hf hd hpc hst =>
    obtain ⟨g, hg, hdec⟩ := Option.bind_eq_some_iff.mp hi
    obtain ⟨o, -, hdec'⟩ := InFlight.isDecoded_of_decode? hdec
    have hback : m'.cpu.pc = m.cpu.pc := by
      rw [hpc, hdec'.pc, ((inLine_of_reachable hm).front hg).2]
    exact .inl ⟨.inl hw, hback⟩
  | transfer hs hr' hw hf hd hpc hst => exact .inl ⟨.inr (.inl hf), hpc⟩
  | flow f hs hr' hw hfetch hf hd hpc hst =>
    cases f with
    | none => exact .inl ⟨.inr (.inl hf), hpc⟩
    | some i => exact .inr ⟨⟨hw, hs⟩, i, hf, InFlight.pc_of_fetch hfetch, hpc⟩

/-- The program counter stands right behind the instruction in the first slot, and
instructions in neighbouring slots are neighbours. A cycle takes it to the target
of a jump or taken branch that leaves the second slot, with nothing behind; else it
leaves it alone if an instruction goes back to the first slot, nothing is in it or
fetching is held; else the word it has stood at is in the first slot, and it moves
past this word. -/
theorem pc_of_reachable (hm : Reachable m) :
    (∀ i, m.slots.fetch = some i → m.cpu.stall = false ∧ m.cpu.pc = i.pc + 4) ∧
    (∀ x y i j, y.number = x.number + 1 → m.slots.at x = some i → m.slots.at y = some j →
      i.pc = j.pc + 4) ∧
    ∀ m', m.step = .ok m' →
      (∀ d, m.slots.decode = some d → d.isTaken = true →
        m'.cpu.pc = d.target ∧ m'.slots.fetch = none ∧ m'.slots.decode = none) ∧
      ((∀ d, m.slots.decode = some d → d.isTaken = false) →
        (m.replays = true ∨ m'.slots.fetch = none ∨ m.cpu.stall = true → m'.cpu.pc = m.cpu.pc) ∧
        (¬(m.replays = true ∨ m'.slots.fetch = none ∨ m.cpu.stall = true) →
          ∃ i, m'.slots.fetch = some i ∧ i.pc = m.cpu.pc ∧ m'.cpu.pc = m.cpu.pc + 4)) := by
  have hl := inLine_of_reachable hm
  refine ⟨fun i => hl.front, fun x y i j => hl.adjacent, fun m' h => ⟨?_, fun hnot => ?_⟩⟩
  · intro d hd ht
    exact moves_of_taken hm h hd ht
  · have hr : m.redirecting = none := by
      cases hd : m.slots.decode with
      | none => rw [redirecting, hd]; rfl
      | some d => rw [redirecting_of_taken hm hd, hnot d hd]; rfl
    rcases moves_of_not_taken hm h hr with ⟨hstay, hpc⟩ | ⟨⟨hw, hs⟩, i, hf, hi, hpc⟩
    · exact ⟨fun _ => hpc, fun hn => absurd hstay hn⟩
    · exact ⟨by simp [hw, hs, hf], fun _ => ⟨i, hf, hi, hpc⟩⟩

/-- The branch behind the load is sent back while the program counter stays, and
two cycles later takes it to its target. -/
theorem pc_of_branchBehindLoad :
    (∃ m m', (start branchBehindLoad).after 2 = .ok m ∧ m.step = .ok m' ∧ m.replays = true ∧
      m'.cpu.pc = m.cpu.pc) ∧
    ∃ m m', (start branchBehindLoad).after 4 = .ok m ∧ m.step = .ok m' ∧ m'.cpu.pc = 12 ∧
      m'.slots.fetch = none := by
  constructor
  · obtain ⟨m, m', hm, hs, hp⟩ := exists_step_after (m := start branchBehindLoad) (n := 2)
      (p := fun m => m.replays && m.slots.decode.all fun d => !d.isTaken) (by decide)
    rw [Bool.and_eq_true] at hp
    have hnot : ∀ d, m.slots.decode = some d → d.isTaken = false := by
      intro d hd
      have h2 := hp.2
      rw [hd] at h2
      simpa using h2
    obtain ⟨-, -, hmove⟩ := pc_of_reachable (reachable_of_after rfl hm)
    exact ⟨m, m', hm, hs, hp.1, ((hmove m' hs).2 hnot).1 (.inl hp.1)⟩
  · obtain ⟨m, m', hm, hs, hp⟩ := exists_step_after (m := start branchBehindLoad) (n := 4)
      (p := fun m => m.slots.decode.any fun d => d.isTaken && d.target == 12) (by decide)
    obtain ⟨d, hd, htaken⟩ := (Option.any_eq_true _ _).mp hp
    rw [Bool.and_eq_true, beq_iff_eq] at htaken
    obtain ⟨-, -, hmove⟩ := pc_of_reachable (reachable_of_after rfl hm)
    obtain ⟨hpc, hf, -⟩ := (hmove m' hs).1 d hd htaken.1
    exact ⟨m, m', hm, hs, hpc.trans htaken.2, hf⟩

end Machine

end FiveStage
