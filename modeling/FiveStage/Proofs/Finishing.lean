import FiveStage.Simulation
import FiveStage.Proofs.Course

/-
  Finishing — whether a run has come to the end of its program

  A program has nothing left to run if a larger limit would change nothing. Of an
  outcome this can be told by trying one step more. The pipeline does: it is finished
  if it is idle. Sequential execution counts: it is finished if it has stopped short of
  its limit. So a program that ends just when the limit is met is finished for the
  pipeline, but not for sequential execution, which has not looked.

  What is proved:
    1. `Run.go_add`, `Run.steps_go` — a run with a larger budget goes on where the
       smaller one has stopped, and one that stops early has nothing left to do.
    2. `concluded_alike_iff` — no larger limit changes what a run comes to if and only if
       nothing is left to do.
    3. `finished_iff` — what the flag of an outcome says.
    4. `unfinished_at_limit` — a program that ends at its limit.
-/

namespace FiveStage

/-! ## Larger budgets -/

namespace Run

variable {σ : Type} {step : σ → Except (Breakdown σ) (Option σ)} {budget k : Nat} {x : σ}

theorem go_of_none (h : step x = .ok none) (budget k : Nat) :
    go step (nobody σ) budget k x () = ⟨x, k, (), .complete⟩ := by
  cases budget with
  | zero => rfl
  | succ budget => simp only [go, h]

theorem go_add (hc : (go step (nobody σ) budget k x ()).ending = .complete) (more : Nat) :
    go step (nobody σ) (budget + more) k x () =
      go step (nobody σ) more (go step (nobody σ) budget k x ()).steps
        (go step (nobody σ) budget k x ()).state () := by
  induction budget generalizing k x with
  | zero => rw [Nat.zero_add]; rfl
  | succ budget ih =>
    rw [Nat.add_right_comm]
    cases hs : step x with
    | error b => simp only [go, hs, reduceCtorEq] at hc
    | ok o =>
      cases o with
      | none =>
        rw [go_of_none hs, go_of_none hs]
        exact (go_of_none hs more k).symm
      | some y =>
        simp only [go, hs, nobody] at hc ⊢
        exact ih hc

theorem steps_go (hc : (go step (nobody σ) budget k x ()).ending = .complete) :
    (go step (nobody σ) budget k x ()).steps = k + budget ∨
      step (go step (nobody σ) budget k x ()).state = .ok none := by
  induction budget generalizing k x with
  | zero => exact .inl rfl
  | succ budget ih =>
    cases hs : step x with
    | error b => simp only [go, hs, reduceCtorEq] at hc
    | ok o =>
      cases o with
      | none =>
        rw [go_of_none hs]
        exact .inr hs
      | some y =>
        simp only [go, hs, nobody] at hc ⊢
        rcases ih hc with h | h
        · exact .inl (by omega)
        · exact .inr h

end Run

theorem Machine.stepUnlessIdle_eq_none_iff {m : Machine} :
    m.stepUnlessIdle = .ok none ↔ m.isIdle = true := by
  unfold stepUnlessIdle
  cases m.isIdle with
  | true => simp
  | false => cases m.step <;> simp [Except.map]

namespace Simulation

/-- Outcomes that differ in their flags at most. -/
structure Alike (o o' : Outcome) : Prop where
  cycles : o'.cycles = o.cycles
  pc : o'.state.cpu.pc = o.state.cpu.pc
  regs : o'.state.cpu.regs = o.state.cpu.regs
  mem : o'.state.mem = o.state.mem

/-- Nothing is left of a program that has been run: whatever larger limit there can be,
the run succeeds after the same cycles, with the same program counter, registers and
memory. A limit is a number of 64 bits. -/
def NothingLeft (host : Host) (path : String) (policy : Policy) (o : Outcome) : Prop :=
  ∀ limit, policy.maxCycles < limit → limit < 2 ^ 64 →
    ∃ o', run host path { policy with maxCycles := limit } none = (.ok o', none) ∧ Alike o o'

/-- One step more is enough to tell whether a larger limit changes anything. -/
theorem concluded_alike_iff {σ : Type} {step : σ → Except (Breakdown σ) (Option σ)}
    (state : σ → State) (flag : Nat → σ → Nat → Bool) {x : σ} {max bound : Nat}
    (hc : (Run.go step (Run.nobody σ) max 0 x ()).ending = .complete) (hb : max + 1 < bound) :
    (∀ limit, max < limit → limit < bound → ∃ o',
      conclude Empty.elim (Run.go step (Run.nobody σ) limit 0 x ())
          (fun y n => ⟨state y, n, flag limit y n⟩) = .ok o' ∧
        Alike ⟨state (Run.go step (Run.nobody σ) max 0 x ()).state,
          (Run.go step (Run.nobody σ) max 0 x ()).steps,
          flag max (Run.go step (Run.nobody σ) max 0 x ()).state
            (Run.go step (Run.nobody σ) max 0 x ()).steps⟩ o') ↔
      step (Run.go step (Run.nobody σ) max 0 x ()).state = .ok none := by
  constructor
  · intro h
    -- a limit of one more takes the next step, and would count it
    obtain ⟨o', ho, halike⟩ := h (max + 1) (Nat.lt_succ_self max) hb
    obtain ⟨hc', rfl⟩ := conclude_eq_ok_iff.mp ho
    have hcycles := halike.cycles
    rw [Run.go_add hc] at hc' hcycles
    cases hs : step (Run.go step (Run.nobody σ) max 0 x ()).state with
    | error b => simp only [Run.go, hs, reduceCtorEq] at hc'
    | ok o =>
      cases o with
      | none => rfl
      | some y =>
        simp only [Run.go, hs, Run.nobody] at hcycles
        omega
  · intro h limit hlt _
    have hgo : Run.go step (Run.nobody σ) limit 0 x () =
        ⟨(Run.go step (Run.nobody σ) max 0 x ()).state,
          (Run.go step (Run.nobody σ) max 0 x ()).steps, (), .complete⟩ := by
      rw [← Nat.add_sub_cancel' (Nat.le_of_lt hlt), Run.go_add hc, Run.go_of_none h]
    exact ⟨_, conclude_eq_ok_iff.mpr ⟨by rw [hgo], rfl⟩, by rw [hgo]; exact ⟨rfl, rfl, rfl, rfl⟩⟩

variable {host : Host} {path : String} {policy : Policy} {o : Outcome} {s : State}

theorem prepare_of_run (hrun : run host path policy none = (.ok o, none)) :
    ∃ s, prepare host path policy = .ok s ∧ execute policy s = .ok o := by
  unfold run at hrun
  cases hp : prepare host path policy with
  | error e => simp [hp] at hrun
  | ok s =>
    rw [hp] at hrun
    exact ⟨s, rfl, (Prod.mk.inj hrun).1⟩

theorem nothingLeft_iff_execute (hp : prepare host path policy = .ok s) :
    NothingLeft host path policy o ↔
      ∀ limit, policy.maxCycles < limit → limit < 2 ^ 64 →
        ∃ o', execute { policy with maxCycles := limit } s = .ok o' ∧ Alike o o' := by
  have hrun (limit : Nat) : run host path { policy with maxCycles := limit } none =
      (execute { policy with maxCycles := limit } s, none) := by
    have hp' : prepare host path { policy with maxCycles := limit } = .ok s := hp
    rw [run, hp']
  simp only [NothingLeft, hrun, Prod.mk.injEq, and_true]

theorem pipelined_finished_iff (hrun : run host path policy none = (.ok o, none))
    (hb : policy.backend = .pipelined) (hlimit : policy.maxCycles + 1 < 2 ^ 64) :
    o.finished = true ↔ NothingLeft host path policy o := by
  obtain ⟨s, hp, ho⟩ := prepare_of_run hrun
  rw [nothingLeft_iff_execute hp]
  obtain ⟨backend, memoryWords, maxCycles⟩ := policy
  obtain rfl : backend = .pipelined := hb
  obtain ⟨hc, rfl⟩ := conclude_eq_ok_iff.mp ho
  have hiff := concluded_alike_iff Machine.state (fun _ m _ => m.isIdle) hc hlimit
  exact Machine.stepUnlessIdle_eq_none_iff.symm.trans hiff.symm

/-- For sequential execution nothing is left if and only if the next step finds
nothing, and the flag says so if the limit has not been met. -/
theorem sequential_finished_iff (hrun : run host path policy none = (.ok o, none))
    (hb : policy.backend = .sequential) (hlimit : policy.maxCycles + 1 < 2 ^ 64) :
    (NothingLeft host path policy o ↔ Sequential.step o.state = .ok none) ∧
      (o.finished = true ↔ NothingLeft host path policy o ∧ o.cycles < policy.maxCycles) := by
  obtain ⟨s, hp, ho⟩ := prepare_of_run hrun
  rw [nothingLeft_iff_execute hp]
  obtain ⟨backend, memoryWords, maxCycles⟩ := policy
  obtain rfl : backend = .sequential := hb
  obtain ⟨hc, rfl⟩ := conclude_eq_ok_iff.mp ho
  have hiff := concluded_alike_iff id (fun limit _ n => decide (n < limit)) hc hlimit
  refine ⟨hiff, ?_⟩
  have hflag : (sequentialOutcome maxCycles (Sequential.run maxCycles s).state
      (Sequential.run maxCycles s).steps).finished = true ↔
        (Sequential.run maxCycles s).steps < maxCycles := decide_eq_true_iff
  refine hflag.trans ⟨fun hlt => ⟨hiff.mpr ?_, hlt⟩, And.right⟩
  rcases Run.steps_go hc with hsteps | hnone
  · have : (Sequential.run maxCycles s).steps = 0 + maxCycles := hsteps
    omega
  · exact hnone

/-- **What the flag of an outcome says.** A pipelined outcome is finished if and only if
nothing is left of the program. A sequential one is finished if and only if nothing is
left and the limit has not been met, so a program that ends just there is reported
as cut off; whether anything is left the next step would tell. -/
theorem finished_iff (hrun : run host path policy none = (.ok o, none))
    (hlimit : policy.maxCycles + 1 < 2 ^ 64) :
    (policy.backend = .pipelined → (o.finished = true ↔ NothingLeft host path policy o)) ∧
      (policy.backend = .sequential →
        (NothingLeft host path policy o ↔ Sequential.step o.state = .ok none) ∧
        (o.finished = true ↔ NothingLeft host path policy o ∧ o.cycles < policy.maxCycles)) :=
  ⟨fun hb => pipelined_finished_iff hrun hb hlimit,
    fun hb => sequential_finished_iff hrun hb hlimit⟩

/-- A host on which every file is the one word `addi x1, x0, 7`. -/
def addHost : Host :=
  { read := fun _ => .ok [0x93, 0x00, 0x70, 0x00]
    create := fun _ => .ok .file
    memory := 2 ^ 64 }

theorem exists_outcome {p : Outcome → Bool}
    (h : (run host path policy none).1.toOption.any p = true) :
    ∃ o, run host path policy none = (.ok o, none) ∧ p o = true := by
  cases hp : prepare host path policy with
  | error e => simp [run, hp, Except.toOption] at h
  | ok s =>
    cases he : execute policy s with
    | error e => simp [run, hp, he, Except.toOption] at h
    | ok o =>
      simp only [run, hp, he, Except.toOption, Option.any_some] at h
      exact ⟨o, by simp only [run, hp, he], h⟩

/-- The pipeline takes six cycles for one instruction, and is not finished after five. -/
theorem finished_iff_at_addHost :
    ∃ o o', run addHost "add" ⟨.pipelined, 4, 6⟩ none = (.ok o, none) ∧
      NothingLeft addHost "add" ⟨.pipelined, 4, 6⟩ o ∧
      run addHost "add" ⟨.pipelined, 4, 5⟩ none = (.ok o', none) ∧
      ¬NothingLeft addHost "add" ⟨.pipelined, 4, 5⟩ o' := by
  have hsix : (run addHost "add" ⟨.pipelined, 4, 6⟩ none).1.toOption.any (·.finished) = true := by
    decide
  have hfive : (run addHost "add" ⟨.pipelined, 4, 5⟩ none).1.toOption.any (!·.finished) = true := by
    decide
  obtain ⟨o, hrun, hfin⟩ := exists_outcome hsix
  obtain ⟨o', hrun', hfin'⟩ := exists_outcome hfive
  have hiff := (finished_iff hrun (by decide)).1 rfl
  have hiff' := (finished_iff hrun' (by decide)).1 rfl
  refine ⟨o, o', hrun, hiff.mp hfin, hrun', fun h => ?_⟩
  rw [hiff'.mpr h] at hfin'
  exact absurd hfin' nofun

/-- One instruction and a limit of one: sequential execution does all there is to do,
and reports that it was cut off. The pipeline spends its limit of six as well, and
reports that it has finished. -/
theorem unfinished_at_limit :
    (∃ o, run addHost "add" ⟨.sequential, 4, 1⟩ none = (.ok o, none) ∧ o.cycles = 1 ∧
      o.finished = false ∧ NothingLeft addHost "add" ⟨.sequential, 4, 1⟩ o) ∧
    ∃ o, run addHost "add" ⟨.pipelined, 4, 6⟩ none = (.ok o, none) ∧ o.cycles = 6 ∧
      o.finished = true := by
  constructor
  · have hone : (run addHost "add" ⟨.sequential, 4, 1⟩ none).1.toOption.any (fun o =>
        o.cycles == 1 && !o.finished && (Sequential.step o.state).toOption.any Option.isNone)
        = true := by
      decide
    obtain ⟨o, hrun, h⟩ := exists_outcome hone
    simp only [Bool.and_eq_true, beq_iff_eq, Bool.not_eq_true'] at h
    have hstep : Sequential.step o.state = .ok none := by
      cases hs : Sequential.step o.state with
      | error b => simp [hs, Except.toOption] at h
      | ok next => simpa [hs, Except.toOption] using h.2
    exact ⟨o, hrun, h.1.1, h.1.2, (sequential_finished_iff hrun rfl (by decide)).1.mpr hstep⟩
  · have hsix : (run addHost "add" ⟨.pipelined, 4, 6⟩ none).1.toOption.any (fun o =>
        o.cycles == 6 && o.finished) = true := by
      decide
    obtain ⟨o, hrun, h⟩ := exists_outcome hsix
    simp only [Bool.and_eq_true, beq_iff_eq] at h
    exact ⟨o, hrun, h⟩

end Simulation

end FiveStage
