import FiveStage.Proofs.Passage

/-
  Isolation — a branch or jump under way has the front of the pipeline to itself

  Fetching is held from the cycle in which a branch or jump is decoded to the one
  in which it is written back. The flag that holds it is set in one place and
  cleared in two; that it never gets out of step with the slots is an invariant of
  all five, `Isolates`, and rests on what a cycle can do to the front at all,
  `Moves`.

  What is proved:
    1. `moves_of_step` — a cycle of an isolating machine holds fetching, sends the
       decoded instruction back, lets a branch or jump in, or lets the
       instructions flow.
    2. `isolates_step`, `isolates_of_reachable` — the invariant is kept.
    3. `stallLeft_step` — a stall comes one cycle nearer to its end in each cycle.
    4. `transfer_isolated` — all of it for the machines that can be met on the way.
-/

namespace FiveStage

open Hazard (controlFlowIn)

namespace Machine

/-- Whether a cycle sends the instruction in the first slot back there, because it
reads what the load ahead of it has yet to deliver. -/
def replays (m : Machine) : Bool :=
  m.decoding.any fun i => m.executing.any (InFlight.awaits · i)

/-- Fetching is held exactly for a branch or jump that is not yet written back, and
nothing is behind one. -/
structure Isolates (m : Machine) : Prop where
  stall : m.cpu.stall = (controlFlowIn m.slots.decode || controlFlowIn m.slots.execute ||
    controlFlowIn m.slots.memory)
  alone : ∀ {x y : Stage}, x.number < y.number → controlFlowIn (m.slots.at y) = true →
    m.slots.at x = none

/-- What a cycle can do to the first two slots, the program counter and the stall. -/
inductive Moves (m m' : Machine) : Prop
  /-- Nothing is fetched, and nothing is there to be decoded. -/
  | held (hs : m.cpu.stall = true) (hf : m'.slots.fetch = none) (hd : m'.slots.decode = none)
      (hpc : m'.cpu.pc = m.redirecting.getD m.cpu.pc)
      (hst : m'.cpu.stall = !controlFlowIn m.slots.memory)
  /-- The instruction in the first slot has to wait for a load and goes back there. -/
  | back (i : InFlight) (hs : m.cpu.stall = false) (hr : m.redirecting = none)
      (hw : m.replays = true) (hi : m.decoding = some i)
      (hf : m'.slots.fetch = some { i with stage := .fetch }) (hd : m'.slots.decode = none)
      (hpc : m'.cpu.pc = i.pc + 4) (hst : m'.cpu.stall = false)
  /-- A branch or jump is decoded, and what is fetched behind it is dropped. -/
  | transfer (hs : m.cpu.stall = false) (hr : m.redirecting = none) (hw : m.replays = false)
      (hf : m'.slots.fetch = none) (hd : controlFlowIn m'.slots.decode = true)
      (hpc : m'.cpu.pc = m.cpu.pc) (hst : m'.cpu.stall = true)
  /-- What is fetched stays, and the program counter moves past it. -/
  | flow (f : Option InFlight) (hs : m.cpu.stall = false) (hr : m.redirecting = none)
      (hw : m.replays = false) (hfetch : InFlight.fetch m.mem m.cpu.pc = .ok f)
      (hf : m'.slots.fetch = f) (hd : controlFlowIn m'.slots.decode = false)
      (hpc : m'.cpu.pc = if f = none then m.cpu.pc else m.cpu.pc + 4)
      (hst : m'.cpu.stall = false)

variable {m m' : Machine}

/-! ## What a cycle does to the front -/

theorem fetching_of_stall (hs : m.cpu.stall = true) : m.fetching = .ok none := by
  rw [fetching, if_pos hs]

theorem fetching_of_unstalled (hs : m.cpu.stall = false) :
    m.fetching = InFlight.fetch m.mem m.cpu.pc := by
  rw [fetching, hs]
  rfl

namespace Isolates

theorem fetch_of_stall (hi : m.Isolates) (hs : m.cpu.stall = true) : m.slots.fetch = none := by
  rw [hi.stall, Bool.or_eq_true, Bool.or_eq_true] at hs
  rcases hs with (hd | he) | hm
  · exact hi.alone (x := .fetch) (y := .decode) (by decide) hd
  · exact hi.alone (x := .fetch) (y := .execute) (by decide) he
  · exact hi.alone (x := .fetch) (y := .memory) (by decide) hm

/-- A branch or jump in one of three slots holds fetching. -/
theorem stall_of_controlFlowIn (hi : m.Isolates) {x : Stage} (hx : x ≠ .fetch)
    (hx' : x ≠ .writeBack) (hc : controlFlowIn (m.slots.at x) = true) : m.cpu.stall = true := by
  rw [hi.stall]
  cases x with
  | fetch => exact absurd rfl hx
  | writeBack => exact absurd rfl hx'
  | decode | execute | memory =>
    rw [Slots.at] at hc
    simp [hc]

/-- Without a stall no branch or jump is under way. -/
theorem of_unstalled (hi : m.Isolates) (hs : m.cpu.stall = false) :
    controlFlowIn m.slots.decode = false ∧ controlFlowIn m.slots.execute = false ∧
      controlFlowIn m.slots.memory = false := by
  have h := hi.stall
  rwa [hs, eq_comm, Bool.or_eq_false_iff, Bool.or_eq_false_iff, and_assoc] at h

end Isolates

theorem awaitsLoad_shifted (m : Machine) (f : Option InFlight) (a : Option InFlight × Memory)
    (r : Option InFlight × Registers) {i : InFlight} (hd : m.decoding = some i) :
    Hazard.awaitsLoad (m.shifted f a.1 r.1) i = m.replays := by
  rw [InFlight.awaitsLoad_eq, replays, hd]
  rfl

/-- The program counter moves past what has been fetched. -/
theorem pc_advance (slots : Slots) {pc : Word} {regs : Registers} {mem : Memory}
    (hf : InFlight.fetch mem pc = .ok slots.fetch) :
    (Cycle.advance slots ⟨pc, false, regs⟩).pc
      = if slots.fetch = none then pc else pc + 4 := by
  cases hs : slots.fetch with
  | none => rw [advance_of_fetch_none hs, if_pos rfl]
  | some g =>
    rw [advance_of_fetch_some hs (InFlight.pc_of_fetch (hs ▸ hf)) rfl, if_neg nofun]

theorem moves_of_step (hi : m.Isolates) (hr : m.cpu.stall = false → m.redirecting = none)
    (h : m.step = .ok m') : Moves m m' := by
  obtain ⟨f, a, r, hf, -, hret, rfl⟩ := step_eq_ok_iff.mp h
  -- the cases of `Hazard.resolve`, of which only a bubble can meet a stall
  cases hs : m.cpu.stall with
  | true =>
    have hd : m.decoding = none := by rw [decoding, hi.fetch_of_stall hs]; rfl
    obtain rfl := Except.ok.inj (hf.symm.trans (fetching_of_stall hs))
    rw [assembled_of_bubble hd, advance_of_fetch_none rfl]
    refine .held hs rfl hd rfl ?_
    show (m.cpu.stall && !controlFlowIn r.1) = _
    rw [hs, Bool.true_and,
      InFlight.controlFlowIn_of_asDecoded (asDecoded_of_retiring hret)]
  | false =>
    have hr := hr hs
    rw [fetching_of_unstalled hs] at hf
    cases hd : m.decoding with
    | none =>
      have hw : m.replays = false := by rw [replays, hd]; rfl
      rw [assembled_of_bubble hd, released_of_fetching hr hs]
      refine .flow f hs hr hw hf rfl ?_ (pc_advance (m.shifted f a.1 r.1) hf)
        (advance_stall _ _)
      show controlFlowIn m.decoding = false
      rw [hd]
      rfl
    | some i =>
      have hw := awaitsLoad_shifted m f a r hd
      cases hrep : m.replays with
      | true =>
        rw [assembled_of_replay hd (hw.trans hrep), released_of_fetching hr hs, ite_self,
          advance_of_fetch_some rfl rfl rfl]
        exact .back i hs hr hrep hd rfl rfl rfl rfl
      | false =>
        have hcf := InFlight.isControlFlow_forward (m.shifted f a.1 r.1) i
        cases hc : i.isControlFlow with
        | true =>
          rw [assembled_of_transfer hd hc (hw.trans hrep), released_of_fetching hr hs]
          exact .transfer hs hr hrep rfl (hcf.trans hc) rfl rfl
        | false =>
          rw [assembled_of_plain hd hc (hw.trans hrep), released_of_fetching hr hs]
          exact .flow f hs hr hrep hf rfl (hcf.trans hc)
            (pc_advance (m.shifted f a.1 r.1) hf) (advance_stall _ _)

/-! ## The invariant -/

theorem isolates_start {s : State} (h : s.cpu.stall = false) : (start s).Isolates :=
  { stall := h
    alone := by
      intro x y _ hc
      cases y <;> exact absurd hc nofun }

/-- While fetching is held nothing comes in. -/
theorem Moves.front_of_stall (hmv : Moves m m') (hs : m.cpu.stall = true) :
    m'.slots.fetch = none ∧ m'.slots.decode = none := by
  cases hmv with
  | held _ hf hd => exact ⟨hf, hd⟩
  | back _ hs' => exact absurd (hs.symm.trans hs') nofun
  | transfer hs' => exact absurd (hs.symm.trans hs') nofun
  | flow _ hs' => exact absurd (hs.symm.trans hs') nofun

/-- What was alone in front of its followers is so one slot further on. -/
theorem Isolates.alone_of_step (hi : m.Isolates) (hmv : Moves m m') (h : m.step = .ok m')
    {x y z : Stage} (hz : z ≠ .fetch) (hz' : z ≠ .writeBack) (hy : y.number = z.number + 1)
    (hxy : x.number < y.number) (hc : controlFlowIn (m'.slots.at y) = true) :
    m'.slots.at x = none := by
  rw [controlFlowIn_at_succ h hz hy] at hc
  obtain ⟨hf, hd⟩ := hmv.front_of_stall (hi.stall_of_controlFlowIn hz hz' hc)
  have hbehind {v w : Stage} (hv : v ≠ .fetch) (hw : w.number = v.number + 1)
      (hwy : w.number < y.number) : m'.slots.at w = none :=
    at_succ_eq_none h hv hw (hi.alone (by omega) hc)
  cases x with
  | fetch => exact hf
  | decode => exact hd
  | execute => exact hbehind (v := .decode) nofun rfl hxy
  | memory => exact hbehind (v := .execute) nofun rfl hxy
  | writeBack => exact hbehind (v := .memory) nofun rfl hxy

/-- The flag keeps up with the slots. -/
theorem Isolates.stall_of_step (hi : m.Isolates) (hmv : Moves m m') (h : m.step = .ok m') :
    m'.cpu.stall = (controlFlowIn m'.slots.decode || controlFlowIn m'.slots.execute ||
      controlFlowIn m'.slots.memory) := by
  rw [controlFlowIn_execute h, controlFlowIn_memory h]
  cases hmv with
  | held hs hf hd hpc hst =>
    have hstall := hi.stall
    rw [hs] at hstall
    rw [hst, hd]
    cases hm : controlFlowIn m.slots.memory with
    | false =>
      rw [hm, Bool.or_false] at hstall
      exact hstall
    | true =>
      -- the one that is written back was the only one
      have hdec : m.slots.decode = none := hi.alone (x := .decode) (y := .memory) (by decide) hm
      have hexe : m.slots.execute = none := hi.alone (x := .execute) (y := .memory) (by decide) hm
      rw [hdec, hexe]
      rfl
  | back i hs hr hw hi' hf hd hpc hst =>
    obtain ⟨hdec, hexe, -⟩ := hi.of_unstalled hs
    rw [hst, hd, hdec, hexe]
    rfl
  | transfer hs hr hw hf hd hpc hst =>
    rw [hst, hd]
    rfl
  | flow f hs hr hw hfetch hf hd hpc hst =>
    obtain ⟨hdec, hexe, -⟩ := hi.of_unstalled hs
    rw [hst, hd, hdec, hexe]
    rfl

theorem isolates_step (hi : m.Isolates) (hmv : Moves m m') (h : m.step = .ok m') :
    m'.Isolates := by
  refine ⟨hi.stall_of_step hmv h, fun {x y} hxy hc => ?_⟩
  cases y with
  | fetch => exact absurd hxy (Nat.not_lt_zero _)
  | decode =>
    obtain rfl : x = .fetch := Stage.number_inj (Nat.lt_one_iff.mp hxy)
    cases hmv with
    | held hs hf hd hpc hst => exact hf
    | back i hs hr hw hi' hf hd hpc hst =>
      rw [Slots.at, hd] at hc
      exact absurd hc Bool.false_ne_true
    | transfer hs hr hw hf hd hpc hst => exact hf
    | flow f hs hr hw hfetch hf hd hpc hst => exact absurd (hd.symm.trans hc) Bool.false_ne_true
  | execute =>
    exact hi.alone_of_step hmv h (z := .decode) (by decide) (by decide) rfl hxy hc
  | memory =>
    exact hi.alone_of_step hmv h (z := .execute) (by decide) (by decide) rfl hxy hc
  | writeBack =>
    exact hi.alone_of_step hmv h (z := .memory) (by decide) (by decide) rfl hxy hc

/-- Only a branch or jump moves the program counter, and it holds fetching. -/
theorem redirecting_of_unstalled (hm : Reachable m) (hi : m.Isolates)
    (hs : m.cpu.stall = false) : m.redirecting = none := by
  have hc := (hi.of_unstalled hs).1
  rw [redirecting]
  cases hd : m.slots.decode with
  | none => rfl
  | some d =>
    obtain ⟨o, -, hdec⟩ := isDecoded_of_reachable hm hd
    rw [hd] at hc
    exact InFlight.target_eq_none hdec (hdec.isControlFlow.symm.trans hc)

theorem isolates_of_reachable (hm : Reachable m) : m.Isolates := by
  induction hm with
  | start h => exact isolates_start h
  | step hm h ih => exact isolates_step ih (moves_of_step ih (redirecting_of_unstalled hm ih) h) h

theorem moves_of_reachable (hm : Reachable m) (h : m.step = .ok m') : Moves m m' :=
  have hi := isolates_of_reachable hm
  moves_of_step hi (redirecting_of_unstalled hm hi) h

/-! ## How long a stall lasts -/

/-- For how many more cycles fetching is held. -/
def stallLeft (m : Machine) : Nat :=
  if controlFlowIn m.slots.decode then 3
  else if controlFlowIn m.slots.execute then 2
  else if controlFlowIn m.slots.memory then 1
  else 0

theorem stallLeft_le (m : Machine) : m.stallLeft ≤ 3 := by
  unfold stallLeft
  repeat' split
  all_goals omega

theorem stallLeft_pos_iff (hi : m.Isolates) : 0 < m.stallLeft ↔ m.cpu.stall = true := by
  rw [hi.stall, stallLeft]
  cases controlFlowIn m.slots.decode <;> cases controlFlowIn m.slots.execute <;>
    cases controlFlowIn m.slots.memory <;> decide

theorem stallLeft_step (hm : Reachable m) (h : m.step = .ok m') (hs : m.cpu.stall = true) :
    m'.stallLeft + 1 = m.stallLeft := by
  have hpos := (stallLeft_pos_iff (isolates_of_reachable hm)).mpr hs
  have hdec : controlFlowIn m'.slots.decode = false := by
    rw [((moves_of_reachable hm h).front_of_stall hs).2]
    rfl
  unfold stallLeft at hpos ⊢
  rw [hdec, controlFlowIn_execute h, controlFlowIn_memory h]
  revert hpos
  cases controlFlowIn m.slots.decode <;> cases controlFlowIn m.slots.execute <;>
    cases controlFlowIn m.slots.memory <;> decide

theorem stallLeft_after (hm : Reachable m) {n : Nat}
    (hs : ∀ k, k < n → ∃ m', m.after k = .ok m' ∧ m'.cpu.stall = true) (h : m.after n = .ok m') :
    m'.stallLeft + n = m.stallLeft := by
  induction n generalizing m' with
  | zero => rw [Except.ok.inj h, Nat.add_zero]
  | succ n ih =>
    obtain ⟨m'', hn, hstep⟩ := exists_of_after_succ h
    obtain ⟨_, hn', hst⟩ := hs n (Nat.lt_succ_self n)
    obtain rfl := Except.ok.inj (hn.symm.trans hn')
    have hleft := ih (fun k hk => hs k (Nat.lt_succ_of_lt hk)) hn
    have hone := stallLeft_step (hm.after hn) hstep hst
    omega

/-- Fetching is held for at most three cycles in a row. -/
theorem stalled_le (hm : Reachable m) {n : Nat}
    (hs : ∀ k, k < n → ∃ m', m.after k = .ok m' ∧ m'.cpu.stall = true) : n ≤ 3 := by
  cases n with
  | zero => exact Nat.zero_le 3
  | succ n =>
    obtain ⟨m', hn, hst⟩ := hs n (Nat.lt_succ_self n)
    have hleft := stallLeft_after hm (fun k hk => hs k (Nat.lt_succ_of_lt hk)) hn
    have hpos := (stallLeft_pos_iff (isolates_of_reachable (hm.after hn))).mpr hst
    have hle := stallLeft_le m
    omega

/-! ## What follows a branch or jump -/

/-- Behind the first slot a branch or jump takes one slot a cycle. -/
theorem controlFlowIn_after {x y : Stage} {n : Nat} (h : m.after n = .ok m') (hx : x ≠ .fetch)
    (hy : y.number = x.number + n) (hc : controlFlowIn (m.slots.at x) = true) :
    controlFlowIn (m'.slots.at y) = true := by
  induction n generalizing m' y with
  | zero =>
    obtain rfl := Except.ok.inj h
    obtain rfl : y = x := Stage.number_inj hy
    exact hc
  | succ n ih =>
    obtain ⟨m'', hn, hstep⟩ := exists_of_after_succ h
    obtain ⟨z, hz⟩ : ∃ z : Stage, y.number = z.number + 1 :=
      Stage.exists_pred (by rw [hy]; omega)
    have hne : z ≠ .fetch := by
      rintro rfl
      have : x.number = 0 := by rw [Stage.number] at hz; omega
      exact hx (Stage.number_inj this)
    rw [controlFlowIn_at_succ hstep hne hz]
    exact ih hn (by omega)

/-- What is executed next behind a decoded branch or jump is executed five cycles
after it. -/
theorem execute_after_transfer (hm : Reachable m) (hc : controlFlowIn m.slots.decode = true)
    {n : Nat} (hlo : 2 ≤ n) (hhi : n ≤ 5) (h : m.after n = .ok m') : m'.slots.execute = none := by
  have hisolates {k : Nat} {m'' : Machine} (hk : m.after k = .ok m'') :=
    isolates_of_reachable (hm.after hk)
  -- three cycles later it is in the last slot and every other one is empty
  have hwritten {m'' : Machine} (hk : m.after 3 = .ok m'') {x : Stage}
      (hx : x.number < Stage.writeBack.number) : m''.slots.at x = none :=
    (hisolates hk).alone hx (controlFlowIn_after (x := .decode) hk nofun rfl hc)
  -- so the cycle after has nothing to decode
  have hdecode {m₄ : Machine} (h₄ : m.after 4 = .ok m₄) : m₄.slots.execute = none ∧
      m₄.slots.decode = none := by
    obtain ⟨m₃, h₃, hs⟩ := exists_of_after_succ h₄
    refine ⟨at_succ_eq_none (x := .decode) (y := .execute) hs nofun rfl
      (hwritten h₃ (by decide)), ?_⟩
    cases hd : m₄.slots.decode with
    | none => rfl
    | some d =>
      obtain ⟨g, o, hg, -⟩ := decode_of_step hs hd
      exact absurd ((hwritten h₃ (x := .fetch) (by decide)).symm.trans hg) nofun
  obtain rfl | rfl | rfl | rfl : n = 2 ∨ n = 3 ∨ n = 4 ∨ n = 5 := by omega
  · exact (hisolates h).alone (x := .execute) (y := .memory) (by decide)
      (controlFlowIn_after (x := .decode) h nofun rfl hc)
  · exact hwritten h (x := .execute) (by decide)
  · exact (hdecode h).1
  · obtain ⟨m₄, h₄, hs⟩ := exists_of_after_succ h
    exact at_succ_eq_none (x := .decode) (y := .execute) hs nofun rfl (hdecode h₄).2

/-- Fetching is held exactly while a branch or jump is decoded and not yet written
back. There is one at most, whatever is younger is gone, and so nothing that was
fetched behind it before it was executed is ever executed. After three cycles at
the latest fetching goes on. -/
theorem transfer_isolated (hm : Reachable m) :
    (m.cpu.stall = true ↔
      ∃ x ∈ [Stage.decode, .execute, .memory], controlFlowIn (m.slots.at x) = true) ∧
    (∀ x y : Stage, x ≠ .fetch → y ≠ .fetch → controlFlowIn (m.slots.at x) = true →
      controlFlowIn (m.slots.at y) = true → x = y) ∧
    (∀ x y : Stage, x.number < y.number → controlFlowIn (m.slots.at y) = true →
      m.slots.at x = none) ∧
    (controlFlowIn m.slots.decode = true → ∀ n m', 2 ≤ n → n ≤ 5 → m.after n = .ok m' →
      m'.slots.execute = none) ∧
    ∀ n, (∀ k, k < n → ∃ m', m.after k = .ok m' ∧ m'.cpu.stall = true) → n ≤ 3 := by
  have hi := isolates_of_reachable hm
  refine ⟨?_, ?_, fun x y => hi.alone, fun hc n m' hlo hhi => execute_after_transfer hm hc hlo hhi,
    fun n => stalled_le hm⟩
  · rw [hi.stall]
    simp [Slots.at, or_assoc]
  · intro x y _ _ hx hy
    have hnot {u v : Stage} (hu : controlFlowIn (m.slots.at u) = true)
        (hv : controlFlowIn (m.slots.at v) = true) : ¬u.number < v.number := by
      intro hlt
      rw [hi.alone hlt hv] at hu
      exact absurd hu Bool.false_ne_true
    exact Stage.number_inj (Nat.le_antisymm (Nat.le_of_not_lt (hnot hy hx))
      (Nat.le_of_not_lt (hnot hx hy)))

/-- A load of a zero into x1, a branch that is taken if x1 is zero, an addition that
it leads past and another that it leads to. -/
def branchBehindLoad : State :=
  { cpu := .reset
    mem := ((((Memory.zeroed 8).set 0 0x01c02083 (Nat.zero_lt_succ 7)).set 1
      0x00008463 (by decide)).set 2 0x00100113 (by decide)).set 3 0x00200193 (by decide) }

/-- After four cycles the branch is decoded for the second time, with nothing behind
it; then no more than three cycles pass until fetching goes on. -/
theorem branchBehindLoad_isolated :
    ∃ m, (start branchBehindLoad).after 4 = .ok m ∧ m.cpu.stall = true ∧ m.slots.fetch = none ∧
      (∀ m', m.after 5 = .ok m' → m'.slots.execute = none) ∧
      ¬∀ k, k < 4 → ∃ m', m.after k = .ok m' ∧ m'.cpu.stall = true := by
  obtain ⟨m, hm, hc⟩ := exists_of_after (m := start branchBehindLoad) (n := 4)
    (p := fun m => controlFlowIn m.slots.decode) (by decide)
  obtain ⟨hstall, -, halone, hexe, hlast⟩ := transfer_isolated (reachable_of_after rfl hm)
  exact ⟨m, hm, hstall.mpr ⟨.decode, List.mem_cons_self, hc⟩,
    halone .fetch .decode (by decide) hc, fun m' => hexe hc 5 m' (by decide) (by decide),
    fun hall => absurd (hlast 4 hall) (by decide)⟩

end Machine

end FiveStage
