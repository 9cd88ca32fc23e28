import FiveStage.Report
import FiveStage.Simulation
import FiveStage.Proofs.Finishing
import FiveStage.Proofs.Loading
import FiveStage.Proofs.Straying

/-
  Capacity — how much memory a program is given cannot be seen, once it is enough

  What lies behind the end of memory is met in four ways: a loader stops there, a
  cycle or step faults, an idle machine takes it for a place with nothing to fetch,
  and a pixel there is dark. In a larger memory there is a zero instead, which is
  nothing to fetch either, and dark. So a program that is loaded and run in some
  memory without being stopped does the same in a larger one, if there is a larger
  one: the host may not have it, and no memory spans `spanLimit` bytes.

  What is proved:
    1. `Run.exists_of_related` — related states stay related throughout a run.
    2. `isIdle_of_extends`, `screen_of_extends` — idleness and the screen.
    3. `prepare_of_larger`, `execute_of_resized`, `tracedRun_of_resized` — the parts of
       a simulation.
    4. `run_of_larger` — the whole of it.
    5. `capacity_seen` — where there is no larger memory, it can be seen.
-/

namespace FiveStage

open Memory

/-! ## Runs side by side -/

namespace Run

variable {σ τ α ε : Type} {R : σ → τ → Prop}
  {step : σ → Except (Breakdown σ) (Option σ)} {step' : τ → Except (Breakdown τ) (Option τ)}
  {watch : Onlooker σ α ε} {watch' : Onlooker τ α ε}

/-- If each step of one side is made by the other, and the onlookers note the same, a
run that is not broken off has its like. -/
theorem exists_of_related
    (hstep : ∀ s t, R s t → ∀ o, step s = .ok o → ∃ o', step' t = .ok o' ∧ Option.Rel R o o')
    (hwatch : ∀ n s t notes, R s t → watch' n t notes = watch n s notes)
    {budget steps : Nat} {s : σ} {t : τ} {notes : α} {r : Run σ α ε} (h : R s t)
    (hr : go step watch budget steps s notes = r) (hc : r.ending = .complete) :
    ∃ t', go step' watch' budget steps t notes = ⟨t', r.steps, r.notes, .complete⟩ ∧
      R r.state t' := by
  induction budget generalizing steps s t notes with
  | zero =>
    subst hr
    exact ⟨t, rfl, h⟩
  | succ budget ih =>
    unfold go at hr
    cases hs : step s with
    | error b =>
      rw [hs] at hr
      subst hr
      cases hc
    | ok o =>
      obtain ⟨o', hs', ho⟩ := hstep s t h o hs
      rw [hs] at hr
      cases ho with
      | none =>
        subst hr
        exact ⟨t, by simp only [go, hs'], h⟩
      | some hR =>
        rename_i s₁ t₁
        dsimp only at hr
        have hw := hwatch (steps + 1) s₁ t₁ notes hR
        cases hn : watch (steps + 1) s₁ notes with
        | mk notes' e =>
          rw [hn] at hr hw
          cases e with
          | some e =>
            subst hr
            cases hc
          | none =>
            obtain ⟨t', hgo, ht'⟩ := ih hR hr
            exact ⟨t', by simp only [go, hs', hw, hgo], ht'⟩

end Run

/-! ## What is looked at behind the end -/

/-- A read finds the word of its cell, or is refused where there is a zero. -/
theorem Memory.read_cases (mem : Memory) (a : Word) :
    mem.read a = .ok (mem.cell a.cellOf) ∨
      mem.read a = .error ⟨a⟩ ∧ mem.cell a.cellOf = 0 := by
  by_cases h : mem.Holds a
  · exact .inl (read_of_holds h)
  · exact .inr ⟨read_of_not_holds h, cell_eq_zero _ (Nat.le_of_not_lt h)⟩

theorem State.nothingToFetch_eq (s : State) : s.nothingToFetch = (s.word == 0) := by
  unfold nothingToFetch word
  rcases s.mem.read_cases s.cpu.pc with h | ⟨h, h0⟩
  · rw [h]
  · rw [h, h0]
    rfl

theorem Machine.isIdle_of_extends {m : Machine} {wide : Memory} (h : m.mem.Extends wide) :
    { m with mem := wide }.isIdle = m.isIdle := by
  have hw : State.word ⟨m.cpu, wide⟩ = m.state.word := Sequential.word_of_extends (s := m.state) h
  unfold isIdle
  rw [State.nothingToFetch_eq, State.nothingToFetch_eq]
  simp only [state] at hw ⊢
  rw [hw]

namespace Report

/-- Outside memory there are zeros, so every pixel is what its cell says. -/
theorem lit_eq (mem : Memory) (x y : Nat) :
    lit mem x y =
      (mem.cell (screenAddress + BitVec.ofNat 32 (4 * (y * screenWidth + x))).cellOf == 1) := by
  unfold lit
  rcases mem.read_cases (screenAddress + BitVec.ofNat 32 (4 * (y * screenWidth + x))) with
    h | ⟨h, h0⟩
  · rw [h]
  · rw [h, h0]
    rfl

theorem screen_of_extends {mem wide : Memory} (h : mem.Extends wide) :
    screen wide = screen mem := by
  have hl : lit wide = lit mem := by
    funext x y
    rw [lit_eq, lit_eq, h.cell]
  rw [screen, screen, hl]

end Report

/-! ## Simulations -/

namespace Simulation

variable {small large : Nat} {host : Host} {path : String} {policy : Policy} {s s' : State}
  {wide : Memory}

theorem blank_of_larger (hb : blank host policy = .ok s) (hle : policy.memoryWords ≤ large)
    (hspan : 4 * large < spanLimit) (hhost : 4 * large ≤ host.memory) :
    blank host { policy with memoryWords := large } = .ok { s with mem := zeroed large } ∧
      s.mem = zeroed policy.memoryWords := by
  unfold blank at hb ⊢
  dsimp only
  split at hb
  · exact absurd hb nofun
  · rename_i h0
    have hn : large ≠ 0 := by omega
    rw [if_neg hn]
    unfold State.reset at hb ⊢
    rw [allocate_eq_ok_iff.mpr ⟨hspan, rfl⟩]
    cases ha : allocate policy.memoryWords with
    | error f => simp [ha, Except.map] at hb
    | ok mem =>
      obtain ⟨-, rfl⟩ := allocate_eq_ok_iff.mp ha
      simp only [ha, Except.map] at hb ⊢
      split at hb
      · exact absurd hb nofun
      · obtain rfl := Except.ok.inj hb
        refine ⟨if_neg ?_, rfl⟩
        have hsize : (zeroed large).size = 4 * large := rfl
        omega

theorem loadProgram_of_resized (h : Resized small large s.mem wide) {file : List Byte}
    (hl : loadProgram path file s = (s', none)) :
    ∃ wide', loadProgram path file { s with mem := wide } = ({ s' with mem := wide' }, none) ∧
      Resized small large s'.mem wide' := by
  unfold loadProgram at hl ⊢
  split at hl
  · rename_i he
    rw [if_pos he]
    exact Elf.load_of_resized h hl
  · rename_i he
    rw [if_neg he]
    cases hi : Image.loadBytes s.mem file with
    | mk mem e =>
      rw [hi] at hl
      cases e with
      | error o => exact absurd (Prod.mk.inj hl).2 nofun
      | ok words =>
        obtain ⟨wide', hi', h'⟩ := Image.loadBytes_of_resized h hi
        obtain ⟨rfl, -⟩ := Prod.mk.inj hl
        exact ⟨wide', by simp only [hi'], h'⟩

theorem prepare_of_larger (hp : prepare host path policy = .ok s)
    (hle : policy.memoryWords ≤ large) (hspan : 4 * large < spanLimit)
    (hhost : 4 * large ≤ host.memory) :
    ∃ wide, prepare host path { policy with memoryWords := large } = .ok { s with mem := wide } ∧
      Resized policy.memoryWords large s.mem wide := by
  unfold prepare at hp ⊢
  cases hb : blank host policy with
  | error e => simp [hb] at hp
  | ok s₀ =>
    obtain ⟨hb', hmem⟩ := blank_of_larger hb hle hspan hhost
    rw [hb] at hp
    rw [hb']
    dsimp only at hp ⊢
    cases hr : host.read path with
    | error e => simp [hr] at hp
    | ok file =>
      rw [hr] at hp
      dsimp only at hp ⊢
      cases hl : loadProgram path file s₀ with
      | mk s₁ e =>
        rw [hl] at hp
        cases e with
        | some e => exact absurd hp nofun
        | none =>
          obtain rfl := Except.ok.inj hp
          have h₀ : Resized policy.memoryWords large s₀.mem (zeroed large) :=
            hmem ▸ resized_zeroed hle
          obtain ⟨wide, hl', h'⟩ := loadProgram_of_resized h₀ hl
          exact ⟨wide, by rw [hl'], h'⟩

/-- States, or machines, that differ in the capacity of their memories. -/
def StatesResized (small large : Nat) (s t : State) : Prop :=
  ∃ wide, t = { s with mem := wide } ∧ Resized small large s.mem wide

def MachinesResized (small large : Nat) (m n : Machine) : Prop :=
  ∃ wide, n = { m with mem := wide } ∧ Resized small large m.mem wide

theorem step_of_statesResized (s t : State) (h : StatesResized small large s t) (o : Option State)
    (ho : Sequential.step s = .ok o) :
    ∃ o', Sequential.step t = .ok o' ∧ Option.Rel (StatesResized small large) o o' := by
  obtain ⟨wide, rfl, hm⟩ := h
  obtain ⟨wide', hs', h'⟩ := Sequential.step_of_extends hm.same ho
  refine ⟨_, hs', ?_⟩
  cases o with
  | none => exact .none
  | some s' =>
    have hsmall : s'.mem.capacity = s.mem.capacity := by
      rw [← Sequential.next_of_step ho, Sequential.capacity_next]
    have hlarge : wide'.capacity = wide.capacity := by
      have := Sequential.capacity_next { s with mem := wide }
      rwa [Sequential.next_of_step hs'] at this
    exact .some ⟨wide', rfl, h' s' rfl, hsmall.trans hm.small, hlarge.trans hm.large⟩

theorem step_of_machinesResized (m n : Machine) (h : MachinesResized small large m n)
    (o : Option Machine) (ho : m.stepUnlessIdle = .ok o) :
    ∃ o', n.stepUnlessIdle = .ok o' ∧ Option.Rel (MachinesResized small large) o o' := by
  obtain ⟨wide, rfl, hm⟩ := h
  unfold Machine.stepUnlessIdle at ho ⊢
  rw [Machine.isIdle_of_extends hm.same]
  split at ho
  · rename_i hi
    obtain rfl := Except.ok.inj ho
    exact ⟨none, if_pos hi, .none⟩
  · rename_i hi
    rw [if_neg hi]
    cases hs : m.step with
    | error b => simp [hs, Except.map] at ho
    | ok m' =>
      obtain ⟨wide', hs', h'⟩ := Machine.step_of_extends hm.same hs
      rw [hs] at ho
      obtain rfl := Except.ok.inj ho
      have hsmall := (Machine.capacity_of_step hs).trans hm.small
      have hlarge := (Machine.capacity_of_step hs').trans hm.large
      exact ⟨_, by rw [hs']; rfl, .some ⟨wide', rfl, h', hsmall, hlarge⟩⟩

/-- What can be told of an outcome, but for the capacity of its memory. -/
structure SameOutcome (small large : Nat) (o o' : Outcome) : Prop where
  cycles : o'.cycles = o.cycles
  finished : o'.finished = o.finished
  state : StatesResized small large o.state o'.state

theorem pipelined_of_machinesResized {m n : Machine} (h : MachinesResized small large m n)
    (cycles : Nat) :
    SameOutcome small large (pipelinedOutcome m cycles) (pipelinedOutcome n cycles) := by
  obtain ⟨wide, rfl, hm⟩ := h
  exact ⟨rfl, Machine.isIdle_of_extends hm.same, wide, rfl, hm⟩

theorem sequentialRun_of_resized {budget : Nat} (h : StatesResized small large s s')
    (hc : (Sequential.run budget s).ending = .complete) :
    ∃ t, Sequential.run budget s' = ⟨t, (Sequential.run budget s).steps, (), .complete⟩ ∧
      StatesResized small large (Sequential.run budget s).state t :=
  Run.exists_of_related step_of_statesResized (fun _ _ _ _ _ => rfl) h rfl hc

theorem machineRun_of_resized {α ε : Type} {watch : Onlooker Machine α ε} {budget : Nat}
    {notes : α} (hwatch : ∀ k m n notes, MachinesResized small large m n →
      watch k n notes = watch k m notes) (h : StatesResized small large s s')
    (hc : ((Machine.start s).runWith watch budget notes).ending = .complete) :
    ∃ n, (Machine.start s').runWith watch budget notes =
        ⟨n, ((Machine.start s).runWith watch budget notes).steps,
          ((Machine.start s).runWith watch budget notes).notes, .complete⟩ ∧
      MachinesResized small large ((Machine.start s).runWith watch budget notes).state n := by
  obtain ⟨wide, rfl, hm⟩ := h
  have hstart : MachinesResized small large (.start s) (.start { s with mem := wide }) :=
    ⟨wide, rfl, hm⟩
  exact Run.exists_of_related step_of_machinesResized hwatch hstart rfl hc

theorem execute_of_resized {words : Nat} {o : Outcome} (h : StatesResized small large s s')
    (ho : execute policy s = .ok o) :
    ∃ o', execute { policy with memoryWords := words } s' = .ok o' ∧
      SameOutcome small large o o' := by
  obtain ⟨backend, memoryWords, maxCycles⟩ := policy
  cases backend with
  | sequential =>
    obtain ⟨hc, rfl⟩ := conclude_eq_ok_iff.mp ho
    obtain ⟨t, hrun, ht⟩ := sequentialRun_of_resized h hc
    refine ⟨sequentialOutcome maxCycles t _,
      conclude_eq_ok_iff.mpr ⟨congrArg Run.ending hrun, ?_⟩, rfl, rfl, ht⟩
    exact congrArg (fun r => sequentialOutcome maxCycles r.state r.steps) hrun.symm
  | pipelined =>
    obtain ⟨hc, rfl⟩ := conclude_eq_ok_iff.mp ho
    obtain ⟨n, hrun, hn⟩ := machineRun_of_resized (fun _ _ _ _ _ => rfl) h hc
    refine ⟨pipelinedOutcome n _, conclude_eq_ok_iff.mpr ⟨congrArg Run.ending hrun, ?_⟩,
      pipelined_of_machinesResized hn _⟩
    exact congrArg (fun r => pipelinedOutcome r.state r.steps) hrun.symm

/-- A record of a cycle does not show memory. -/
theorem recorder_of_machinesResized (sink : Sink) (cycle : Nat) (m n : Machine) (text : String)
    (h : MachinesResized small large m n) :
    Trace.recorder sink cycle n text = Trace.recorder sink cycle m text := by
  obtain ⟨wide, rfl, -⟩ := h
  rfl

theorem tracedRun_of_resized (words : Nat) {sink : Sink} {o : Outcome}
    (h : StatesResized small large s s')
    (ho : concludeTraced sink (tracedRun policy sink s) = .ok o) :
    ∃ o', concludeTraced sink (tracedRun { policy with memoryWords := words } sink s') = .ok o' ∧
      (tracedRun { policy with memoryWords := words } sink s').notes
        = (tracedRun policy sink s).notes ∧
      SameOutcome small large o o' := by
  obtain ⟨hsink, hok⟩ := concludeTraced_eq_ok_iff.mp ho
  obtain ⟨hc, rfl⟩ := conclude_eq_ok_iff.mp hok
  obtain ⟨n, hrun, hn⟩ := machineRun_of_resized (recorder_of_machinesResized sink) h hc
  have hrun' : tracedRun { policy with memoryWords := words } sink s' = _ := hrun
  rw [hrun']
  exact ⟨_, concludeTraced_eq_ok_iff.mpr ⟨hsink, rfl⟩, rfl, pipelined_of_machinesResized hn _⟩

theorem exists_run_of_larger {trace text : Option String} {o : Outcome}
    (hrun : run host path policy trace = (.ok o, text)) (hle : policy.memoryWords ≤ large)
    (hspan : 4 * large < spanLimit) (hhost : 4 * large ≤ host.memory) :
    ∃ o', run host path { policy with memoryWords := large } trace = (.ok o', text) ∧
      SameOutcome policy.memoryWords large o o' := by
  unfold run at hrun ⊢
  cases hp : prepare host path policy with
  | error e => simp [hp] at hrun
  | ok s =>
    obtain ⟨wide, hp', hm⟩ := prepare_of_larger hp hle hspan hhost
    have hstates : StatesResized policy.memoryWords large s { s with mem := wide } :=
      ⟨wide, rfl, hm⟩
    rw [hp] at hrun
    rw [hp']
    dsimp only at hrun ⊢
    cases trace with
    | none =>
      obtain ⟨ho, rfl⟩ := Prod.mk.inj hrun
      obtain ⟨o', ho', hsame⟩ := execute_of_resized hstates ho
      exact ⟨o', by rw [ho'], hsame⟩
    | some tracePath =>
      cases hb : policy.backend with
      | sequential => simp [hb] at hrun
      | pipelined =>
        cases hcr : host.create tracePath with
        | error e => simp [hb, hcr] at hrun
        | ok sink =>
          simp only [hb, hcr, Prod.mk.injEq] at hrun
          obtain ⟨ho, rfl⟩ := hrun
          obtain ⟨o', ho', hnotes, hsame⟩ := tracedRun_of_resized large hstates ho
          rw [hb] at ho' hnotes
          exact ⟨o', by simp only [hcr, ho', hnotes], hsame⟩

/-- **Memory beyond what is enough cannot be seen.** A simulation that succeeds also
succeeds with more memory, if there can be so much and the host has it: after as many
cycles, finished or not as before, with the same cpu, the same trace and the same
screen. Memory holds the same words, and zeros behind them. -/
theorem run_of_larger {host : Host} {path : String} {policy : Policy} {trace text : Option String}
    {o : Outcome} (hrun : run host path policy trace = (.ok o, text)) {words : Nat}
    (hle : policy.memoryWords ≤ words) (hspan : 4 * words < spanLimit)
    (hhost : 4 * words ≤ host.memory) :
    ∃ o', run host path { policy with memoryWords := words } trace = (.ok o', text) ∧
      o'.cycles = o.cycles ∧ o'.finished = o.finished ∧ o'.state.cpu = o.state.cpu ∧
      o.state.mem.capacity = policy.memoryWords ∧ o'.state.mem.capacity = words ∧
      (∀ i, i < policy.memoryWords → o'.state.mem.cell i = o.state.mem.cell i) ∧
      (∀ i, policy.memoryWords ≤ i → i < words → o'.state.mem.cell i = 0) ∧
      Report.screen o'.state.mem = Report.screen o.state.mem := by
  obtain ⟨o', hrun', hcycles, hfinished, wide, hstate, hm⟩ :=
    exists_run_of_larger hrun hle hspan hhost
  have hmem : o'.state.mem = wide := by rw [hstate]
  refine ⟨o', hrun', hcycles, hfinished, by rw [hstate], hm.small, hmem ▸ hm.large, ?_, ?_, ?_⟩
  · intro i _
    rw [hmem, hm.same.cell]
  · intro i hi _
    rw [hmem, hm.same.cell, cell_eq_zero _ (hm.small ▸ hi)]
  · rw [hmem, Report.screen_of_extends hm.same]

theorem run_of_larger_at_addHost :
    ∃ o o', run addHost "add" ⟨.pipelined, 2, 20⟩ none = (.ok o, none) ∧ o.finished = true ∧
      run addHost "add" ⟨.pipelined, 5, 20⟩ none = (.ok o', none) ∧ o'.cycles = o.cycles ∧
      o'.finished = true ∧ o'.state.cpu = o.state.cpu ∧
      o'.state.mem.cell 0 = o.state.mem.cell 0 ∧ o'.state.mem.cell 4 = 0 := by
  have htwo : (run addHost "add" ⟨.pipelined, 2, 20⟩ none).1.toOption.any (·.finished) = true := by
    decide
  obtain ⟨o, hrun, hfin⟩ := exists_outcome htwo
  obtain ⟨o', hrun', hcyc, hf, hcpu, -, -, hsame, hzero, -⟩ :=
    run_of_larger hrun (show 2 ≤ 5 by decide) (by decide) (by decide)
  exact ⟨o, o', hrun, hfin, hrun', hcyc, hf.trans hfin, hcpu, hsame 0 (by decide),
    hzero 4 (by decide) (by decide)⟩

/-- A host on which every file is empty. -/
def emptyHost : Host :=
  { read := fun _ => .ok []
    create := fun _ => .ok .file
    memory := 2 ^ 64 }

/-- One word is enough for a program of none, but the same run is stopped where no
memory can span so many bytes, and where the host does not have them. -/
theorem capacity_seen :
    (∃ o, run emptyHost "empty" ⟨.pipelined, 1, 10⟩ none = (.ok o, none) ∧ o.finished = true) ∧
      run emptyHost "empty" ⟨.pipelined, 2 ^ 61, 10⟩ none = (.error (.fault .capacity), none) ∧
      (∃ o, run { emptyHost with memory := 4 } "empty" ⟨.pipelined, 1, 10⟩ none = (.ok o, none)) ∧
      run { emptyHost with memory := 4 } "empty" ⟨.pipelined, 2, 10⟩ none
        = (.error (.exhausted 8), none) :=
  ⟨⟨_, rfl, by decide⟩, rfl, ⟨_, rfl⟩, rfl⟩

end Simulation

end FiveStage
