import FiveStage.Simulation
import FiveStage.Proofs.Timing

/-
  Agreement — both ways of executing a program that ends come to one result

  A run of the pipeline ends when nothing is in flight. By then all but skipped
  words have been written back, so the registers and memory are those in which
  the course comes to rest, and the program counter is where it comes to rest.

  What is proved:
    1. `stall_of_prepare` — a loaded program starts without a stall.
    2. `InStep.state_eq_of_isIdle` — an idle machine in step has the last state of
       the course.
    3. `backends_agree` — a program that ends gives one result, whichever way it
       is executed, once the limits are large enough.
-/

namespace FiveStage

open FiveStage.Sequential

/-! ## Where a program starts -/

theorem Elf.stall_load (path : String) (file : List Byte) (s : State) :
    (Elf.load path file s).1.cpu.stall = s.cpu.stall := by
  unfold Elf.load
  cases header path file with
  | error e => rfl
  | ok h =>
    dsimp only
    cases loadableSegments path file h <;> rfl

namespace Simulation

theorem stall_loadProgram (path : String) (file : List Byte) (s : State) :
    (loadProgram path file s).1.cpu.stall = s.cpu.stall := by
  unfold loadProgram
  split
  · exact Elf.stall_load path file s
  · split <;> rfl

theorem cpu_of_blank {host : Host} {policy : Policy} {s : State} (h : blank host policy = .ok s) :
    s.cpu = .reset := by
  unfold blank State.reset at h
  split at h
  · exact absurd h nofun
  · cases ha : Memory.allocate policy.memoryWords with
    | error f => simp [ha, Except.map] at h
    | ok mem =>
      simp only [ha, Except.map] at h
      split at h
      · exact absurd h nofun
      · exact (congrArg State.cpu (Except.ok.inj h)).symm

theorem stall_of_prepare {host : Host} {path : String} {policy : Policy} {s : State}
    (h : prepare host path policy = .ok s) : s.cpu.stall = false := by
  unfold prepare at h
  cases hb : blank host policy with
  | error e => simp [hb] at h
  | ok s₀ =>
    cases hr : host.read path with
    | error e => simp [hb, hr] at h
    | ok file =>
      have hs := stall_loadProgram path file s₀
      rw [cpu_of_blank hb] at hs
      simp only [hb, hr] at h
      cases hl : loadProgram path file s₀ with
      | mk s₁ e =>
        rw [hl] at hs
        cases e with
        | some e => simp [hl] at h
        | none =>
          simp only [hl, Except.ok.injEq] at h
          exact h ▸ hs

end Simulation

/-! ## Where it ends -/

variable {s : State} {n N : Nat} {m : Machine}

theorem InStep.state_eq_of_isIdle (h : InStep s n m) (hs : s.cpu.stall = false)
    (hset : FetchesSettled s) (hN : HaltsAfter s N) (hi : m.isIdle = true) :
    m.state = stateAt s N := by
  have hf := hN.neverFaults
  obtain ⟨h0, hall⟩ := (h.isIdle_iff hf hset).mp hi
  obtain ⟨hst, hpc⟩ := h.front_of_passed h0 hall
  rw [begun_eq_iff hN] at h0
  rw [h0] at hpc
  rw [Passed, h0] at hall
  -- what has entered in the last cycles is not supported, or it would still be there
  have hskip {i : Nat} (hi : i ≤ 5) : ∀ k, begun s (n - i) ≤ k → k < N →
      InFlight.isSupported (stateAt s k).word = false := by
    intro k hk hkN
    cases hsup : InFlight.isSupported (stateAt s k).word with
    | false => rfl
    | true =>
      have := (hall k hkN).2 hsup
      have hlt : k < begun s (n - i) :=
        lt_begun_iff.mpr ⟨InFlight.ne_zero_of_isSupported hsup, by omega⟩
      omega
  have hle (i : Nat) : begun s (n - i) ≤ N := begun_le_of_haltsAfter hN
  have hmem := (stateAt_of_skipped hf (hle 3) (hskip (by decide))).1
  have hregs := (stateAt_of_skipped hf (hle 4) (hskip (by decide))).2
  have hcpu : m.cpu = (stateAt s N).cpu := by
    calc m.cpu = ⟨m.cpu.pc, m.cpu.stall, m.cpu.regs⟩ := rfl
      _ = ⟨(stateAt s N).cpu.pc, (stateAt s N).cpu.stall, (stateAt s N).cpu.regs⟩ := by
        rw [hpc, hst, h.regs, hregs, stall_stateAt, hs]
      _ = (stateAt s N).cpu := rfl
  rw [Machine.state, hcpu, h.mem, ← hmem]

/-- Sequential execution makes one step after the other. -/
theorem Sequential.run_eq (hN : HaltsAfter s N) {budget : Nat} (hb : N ≤ budget) :
    run budget s = ⟨stateAt s N, N, (), .complete⟩ := by
  have hstep (k : Nat) (x : State) (hk : k < N) (hx : x = stateAt s k) :
      ∃ y, step x = .ok (some y) ∧ y = stateAt s (k + 1) := by
    obtain ⟨s', hs'⟩ := hN.1 k hk
    exact ⟨s', hx ▸ hs', (next_of_step hs').symm⟩
  have hend (x : State) (hx : x = stateAt s N) : step x = .ok none := hx ▸ hN.2
  obtain ⟨y, rfl, hy⟩ := Run.exists_go (fun k x => x = stateAt s k) hstep hend rfl
    (Nat.zero_le N) (show N ≤ 0 + budget by omega)
  exact hy

/-- A program that ends gives one result, whichever way it is executed. -/
theorem backends_agree {host : Host} {path : String} {policy : Policy}
    (hp : Simulation.prepare host path policy = .ok s) (hN : HaltsAfter s N)
    (hset : FetchesSettled s) (hti : TransfersInside s) :
    ∃ C, ∀ maxCycles, C ≤ maxCycles → ∃ o,
      Simulation.run host path { policy with backend := .pipelined, maxCycles } none
          = (.ok o, none) ∧
        o.finished = true ∧ o.cycles = C ∧ o.state.cpu.stall = false ∧
        ∀ limit, N < limit → ∃ o',
          Simulation.run host path { policy with backend := .sequential, maxCycles := limit } none
              = (.ok o', none) ∧
            o.state.cpu.pc = o'.state.cpu.pc ∧ o.state.cpu.regs = o'.state.cpu.regs ∧
            o.state.mem = o'.state.mem := by
  have hs := Simulation.stall_of_prepare hp
  refine ⟨cycles s N, fun maxCycles hC => ?_⟩
  obtain ⟨m, hin, hrun⟩ := exists_run hs hset hti hN hC
  have hidle := (hin.isIdle_iff_cycles_le hset hN).mpr (Nat.le_refl _)
  have hstate := hin.state_eq_of_isIdle hs hset hN hidle
  have hrun' : Simulation.run host path { policy with backend := .pipelined, maxCycles } none
      = (.ok (Simulation.pipelinedOutcome m (cycles s N)), none) := by
    have hp' : Simulation.prepare host path { policy with backend := .pipelined, maxCycles }
        = .ok s := hp
    simp only [Simulation.run, hp', Simulation.execute, hrun, Simulation.conclude]
  refine ⟨_, hrun', hidle, rfl, (Machine.isIdle_eq_true_iff.mp hidle).2.1, fun limit hl => ?_⟩
  have hseq : Simulation.run host path { policy with backend := .sequential, maxCycles := limit }
      none = (.ok (Simulation.sequentialOutcome limit (stateAt s N) N), none) := by
    have hp' : Simulation.prepare host path
        { policy with backend := .sequential, maxCycles := limit } = .ok s := hp
    simp only [Simulation.run, hp', Simulation.execute, run_eq hN (Nat.le_of_lt hl),
      Simulation.conclude]
  refine ⟨_, hseq, ?_⟩
  show m.state.cpu.pc = _ ∧ m.state.cpu.regs = _ ∧ m.state.mem = _
  rw [hstate]
  exact ⟨rfl, rfl, rfl⟩

/-- A host whose files all hold the words of `detour` up to the last that is not
zero. -/
def detourHost : Host :=
  { read := fun _ => .ok
      [0x83, 0x20, 0xc0, 0x01, 0x33, 0x81, 0x10, 0x00, 0x6f, 0x00, 0x80, 0x00,
       0xff, 0xff, 0xff, 0xff, 0x23, 0x20, 0x20, 0x02, 0x0b, 0x00, 0x00, 0x00,
       0x00, 0x00, 0x00, 0x00, 0x07]
    create := fun _ => .ok .file
    memory := 36 }

theorem backends_agree_on_detour :
    ∃ C o o', Simulation.run detourHost "detour" ⟨.pipelined, 9, C⟩ none = (.ok o, none) ∧
      o.finished = true ∧ o.cycles = C ∧
      Simulation.run detourHost "detour" ⟨.sequential, 9, 6⟩ none = (.ok o', none) ∧
      o.state.cpu.pc = o'.state.cpu.pc ∧ o.state.cpu.regs = o'.state.cpu.regs ∧
      o.state.mem = o'.state.mem := by
  have hp : Simulation.prepare detourHost "detour" ⟨.pipelined, 9, 0⟩ = .ok detour := rfl
  obtain ⟨C, hC⟩ := backends_agree hp haltsAfter_detour fetchesSettled_detour
    transfersInside_detour
  obtain ⟨o, hrun, hfin, hcyc, -, hseq⟩ := hC C (Nat.le_refl C)
  obtain ⟨o', hrun', hpc, hregs, hmem⟩ := hseq 6 (by decide)
  exact ⟨C, o, o', hrun, hfin, hcyc, hrun', hpc, hregs, hmem⟩

end FiveStage
