import Mathlib.Data.Nat.Find
import FiveStage.Proofs.Timing
import FiveStage.Proofs.Widening

/-
  Straying — where the pipeline faults and where sequential execution does

  The pipeline fetches the word behind every branch or jump before it knows what
  the instruction is, and drops it. Where there is no such word it faults, though
  the program never goes there. An idle machine, on the other hand, looks for a
  word without faulting: one that is started outside memory has nothing to fetch
  and is done, where sequential execution faults.

  Apart from these two the faults agree. That a fault of the program is met by the
  pipeline is seen in the widened memory, in which the pipeline goes on in step
  with the course: the machine is the same up to its fault, so when the faulting
  instruction is due the address is there to be met.

  What is proved:
    1. `step_of_isIdle`, `holds_of_isIdle` — an idle machine stays as it is, and one
       that has made a cycle stands in memory.
    2. `forall_after_iff` — cycle after cycle goes through if the course never faults
       and has no branch or jump at the end of memory, and not otherwise.
    3. `Machine.exists_fault_iff`, `Sequential.exists_fault_iff` — what a run makes of it.
    4. `runs_fault_iff` — when one of them faults and not the other.
-/

namespace FiveStage

open FiveStage.Sequential

namespace Machine

variable {m m' : Machine}

/-! ## Idle machines -/

theorem capacity_of_step (h : m.step = .ok m') : m'.mem.capacity = m.mem.capacity := by
  obtain ⟨f, a, r, -, ha, -, rfl⟩ := step_eq_ok_iff.mp h
  rcases accessing_cases ha with ⟨-, rfl⟩ | ⟨e, i, mem, -, hacc, rfl⟩
  · rfl
  · exact InFlight.capacity_of_accessMemory hacc

theorem capacity_of_after {n : Nat} (h : m.after n = .ok m') :
    m'.mem.capacity = m.mem.capacity := by
  induction n generalizing m' with
  | zero => rw [Except.ok.inj h]
  | succ n ih =>
    obtain ⟨m'', hn, hs⟩ := exists_of_after_succ h
    rw [capacity_of_step hs, ih hn]

theorem step_of_isIdle (hi : m.isIdle = true) (hin : m.mem.Holds m.cpu.pc) : m.step = .ok m := by
  obtain ⟨hslots, hst, hno⟩ := isIdle_eq_true_iff.mp hi
  have hf : m.slots.fetch = none := hslots .fetch
  have hd : m.slots.decode = none := hslots .decode
  have he : m.slots.execute = none := hslots .execute
  have hm : m.slots.memory = none := hslots .memory
  have hw : m.slots.writeBack = none := hslots .writeBack
  have hfetch : m.fetching = .ok none := by
    have hok := InFlight.fetch_of_inside hin
    have hnone := InFlight.nothingToFetch_of_fetch (s := m.state) hok
    rw [hno, eq_comm, Option.isNone_iff_eq_none] at hnone
    rw [fetching_of_unstalled hst, hok, hnone]
  have hacc : m.accessing = .ok (none, m.mem) := by rw [accessing, he]
  have hret : m.retiring = .ok (none, m.cpu.regs) := by rw [retiring, hm]
  have hdec : m.decoding = none := by rw [decoding, hf]; rfl
  have hred : m.redirecting = none := by rw [redirecting, hd]; rfl
  have hsame : m.shifted none none none = m.slots := by
    rw [shifted, hdec, executing, hd]
    cases m with
    | mk cpu mem slots =>
      cases slots
      simp_all
  refine step_eq_ok_iff.mpr ⟨none, _, _, hfetch, hacc, hret, ?_⟩
  rw [assembled_of_bubble hdec, released_of_fetching hred hst, advance_of_fetch_none rfl, hsame,
    ← hst]

theorem after_of_isIdle (hi : m.isIdle = true) (hin : m.mem.Holds m.cpu.pc) (n : Nat) :
    m.after n = .ok m := by
  induction n with
  | zero => rfl
  | succ n ih => rw [after_succ ih, step_of_isIdle hi hin]

theorem after_add {n : Nat} (h : m.after n = .ok m') (j : Nat) :
    m.after (n + j) = m'.after j := by
  induction j with
  | zero => exact h
  | succ j ih =>
    rw [← Nat.add_assoc, after, after, ih]

theorem holds_of_isIdle (hm : Reachable m) (h : m.step = .ok m') (hi : m'.isIdle = true) :
    m'.mem.Holds m'.cpu.pc := by
  obtain ⟨hslots, hst, -⟩ := isIdle_eq_true_iff.mp hi
  have hf' : m'.slots.fetch = none := hslots .fetch
  have hw' : m'.slots.writeBack = none := hslots .writeBack
  rw [Memory.Holds, capacity_of_step h]
  cases moves_of_reachable hm h with
  | held hs hf hd hpc hst' =>
    -- the branch or jump that releases fetching is in the last slot
    have hc := controlFlowIn_at_succ h (x := .memory) (y := .writeBack) (by decide) rfl
    rw [Slots.at, Slots.at, hw'] at hc
    rw [← hc] at hst'
    exact absurd (hst.symm.trans hst') Bool.false_ne_true
  | back i hs hr hw hd hf => cases hf'.symm.trans hf
  | transfer hs hr hw hf hd hpc hst' => exact absurd (hst.symm.trans hst') Bool.false_ne_true
  | flow f hs hr hw hfetch hf hd hpc hst' =>
    obtain rfl := hf.symm.trans hf'
    rw [hpc, if_pos rfl]
    exact InFlight.inside_of_fetch hfetch

end Machine

variable {s : State} {n k : Nat} {m : Machine}

/-! ## When an instruction is due -/

theorem begun_le_of_lt_entersAt (h : n < entersAt s k) : begun s n ≤ k := by
  apply Decidable.byContradiction
  intro hn
  have := (lt_begun_iff.mp (Nat.lt_of_not_le hn)).2
  omega

namespace InStep

/-- Behind a branch or jump that has just entered the next word is fetched. -/
theorem front_of_transfer (h : InStep s n m) (hk : entering s n = some k)
    (hb : InFlight.isTransfer (stateAt s k).word = true) :
    m.cpu.stall = false ∧ m.cpu.pc = (stateAt s k).cpu.pc + 4 := by
  obtain ⟨-, hn⟩ := entering_eq_some_iff.mp hk
  have hbegun := (begun_of_entering hk).2
  have hnext := (entersAt_of_transfer hb).1
  cases h.front with
  | ready ht hw hs hpc hst => rw [hbegun] at ht; omega
  | loading ht hw hs hpc hst => rw [hbegun] at ht; omega
  | waiting ht hw hs hpc hst => rw [hbegun] at ht; omega
  | transfer j hj ht hbj hs hpc hst =>
    obtain rfl : j = k := by omega
    exact ⟨hst, hpc⟩
  | held j hj ht hbj hs hpc hst =>
    obtain rfl : j = k := by omega
    omega
  | resolved j hj hlo hhi hbj hs hpc hst =>
    obtain rfl : j = k := by omega
    omega

/-- When it is time for a zero word to enter, it is looked for. -/
theorem front_of_word_zero (h : InStep s n m) (hk : begun s n = k) (ht : entersAt s k = n + 1)
    (h0 : (stateAt s k).word = 0) :
    m.cpu.stall = false ∧ m.cpu.pc = (stateAt s k).cpu.pc := by
  subst hk
  have htransfer {j : Nat} (hj : begun s n = j + 1)
      (hb : InFlight.isTransfer (stateAt s j).word = true) : n + 1 = entersAt s j + 5 := by
    rw [hj, (entersAt_of_transfer hb).1] at ht
    exact ht.symm
  cases h.front with
  | ready _ hw hs hpc hst => exact ⟨hst, hpc⟩
  | loading _ hw hs hpc hst => exact ⟨hst, hpc⟩
  | waiting _ hw hs hpc hst => exact absurd h0 (word_ne_zero_of_waits hw)
  | transfer j hj htj hb hs hpc hst => have := htransfer hj hb; omega
  | held j hj htj hb hs hpc hst => have := htransfer hj hb; omega
  | resolved j hj hlo hhi hb hs hpc hst => have := htransfer hj hb; omega

end InStep

/-! ## The course in a widened memory -/

theorem stateAt_widened {K : Nat} (hok : ∀ j, j < K → ∃ o, step (stateAt s j) = .ok o)
    (hk : k ≤ K) :
    ∃ wide, stateAt s.widened k = { stateAt s k with mem := wide } ∧
      (stateAt s k).mem.Extends wide :=
  stateAt_of_extends s.mem.extends_widened fun j hj => hok j (Nat.lt_of_lt_of_le hj hk)

theorem settledAt_widened {K : Nat} (hok : ∀ j, j < K → ∃ o, step (stateAt s j) = .ok o)
    (hset : FetchesSettled s) (hk : k ≤ K) : SettledAt s.widened k := by
  intro j hj hjk
  obtain ⟨_, hst, -⟩ := stateAt_widened hok hk
  obtain ⟨_, hst₀, h₀⟩ := stateAt_widened hok (k := j) (by omega)
  obtain ⟨_, hst₁, h₁⟩ := stateAt_widened hok (k := j + 1) (by omega)
  rw [hst, hst₀, hst₁]
  show Memory.cell _ _ = Memory.cell _ _
  rw [h₀.cell, h₁.cell]
  exact hset.settledAt k j hj hjk

/-- A machine that has not faulted is in step, up to the capacity of memory, until
the first step has come to its fault. -/
theorem exists_inStep_widened {K : Nat} (hs : s.cpu.stall = false) (hset : FetchesSettled s)
    (hok : ∀ j, j < K → ∃ o, step (stateAt s j) = .ok o) (hn : n ≤ entersAt s.widened K)
    (hm : (Machine.start s).after n = .ok m) :
    ∃ wide, m.mem.Extends wide ∧ InStep s.widened n { m with mem := wide } := by
  obtain ⟨wide, hm', hext⟩ := Machine.after_of_extends s.mem.extends_widened hm
  obtain ⟨m', hm'', hin⟩ := exists_inStep_of_settledAt (n := n) (s := s.widened) hs
    (neverFaults_widened s) (transfersInside_widened s) fun i hi =>
      settledAt_widened hok hset (begun_le_of_lt_entersAt (Nat.lt_of_lt_of_le hi hn))
  obtain rfl := Except.ok.inj (hm'.symm.trans hm'')
  exact ⟨wide, hext, hin⟩

/-! ## Faults are met -/

/-- Before a step that faults the program does not end. -/
theorem word_ne_zero_of_error {K : Nat} (hok : ∀ j, j < K → ∃ o, step (stateAt s j) = .ok o)
    {b : Breakdown State} (hb : step (stateAt s K) = .error b) {j : Nat} (hj : j < K) :
    (stateAt s j).word ≠ 0 := by
  intro h0
  obtain ⟨o, ho⟩ := hok j hj
  rw [stateAt_of_word_zero h0 (Nat.le_of_lt hj), ho] at hb
  exact absurd hb nofun

theorem not_astray_of_forall (hall : ∀ n, ∃ m, (Machine.start s).after n = .ok m)
    (hm : (Machine.start s).after n = .ok m) (address : Word) : ¬m.Astray address := by
  obtain ⟨m', hm'⟩ := hall (n + 1)
  rw [Machine.after_succ hm] at hm'
  exact Machine.not_astray_of_step hm' address

section

variable {K : Nat} (hs : s.cpu.stall = false) (hset : FetchesSettled s)
  (hok : ∀ j, j < K → ∃ o, step (stateAt s j) = .ok o)
  (hall : ∀ n, ∃ m, (Machine.start s).after n = .ok m)

include hs hset hok hall

/-! If no cycle faults, what the program comes to after `K` steps is in memory. -/

/-- A program that has not ended is followed wherever it goes. -/
theorem holds_pc_of_forall (hword : ∀ j, j < K → (stateAt s j).word ≠ 0) :
    (stateAt s K).mem.Holds (stateAt s K).cpu.pc := by
  apply Decidable.byContradiction
  intro hout
  -- in the widened memory a zero word stands there, which is looked for one cycle
  -- before it would enter
  have h0 : (stateAt s K).word = 0 := Memory.cell_eq_zero _ (Nat.le_of_not_lt hout)
  obtain ⟨n, hn⟩ : ∃ n, entersAt s.widened K = n + 1 :=
    ⟨_, (Nat.sub_add_cancel (entersAt_pos K)).symm⟩
  obtain ⟨m, hm⟩ := hall n
  obtain ⟨wide, -, hin⟩ := exists_inStep_widened hs hset hok (by omega) hm
  obtain ⟨_, hst, h⟩ := stateAt_widened hok (Nat.le_refl K)
  have hbegun : begun s.widened n = K := by
    refine Nat.le_antisymm (begun_le_of_lt_entersAt (by omega)) ?_
    cases K with
    | zero => exact Nat.zero_le _
    | succ k =>
      obtain ⟨_, hstk, hk⟩ := stateAt_widened hok (Nat.le_succ k)
      have hlt := entersAt_lt_succ (s := s.widened) k
      refine lt_begun_iff.mpr ⟨?_, by omega⟩
      rw [hstk, word_of_extends hk]
      exact hword k (Nat.lt_succ_self k)
  obtain ⟨hstall, hpc⟩ := hin.front_of_word_zero hbegun hn (by rw [hst, word_of_extends h, h0])
  rw [hst] at hpc
  have hpc' : m.cpu.pc = (stateAt s K).cpu.pc := hpc
  refine not_astray_of_forall hall hm _ (.fetch hstall ?_)
  rw [hpc', Memory.Holds, Machine.capacity_of_after hm]
  rwa [Memory.Holds, capacity_stateAt] at hout

/-- Behind a branch or jump the next word is fetched, wherever it leads. -/
theorem holds_behind_of_forall (hb : InFlight.isTransfer (stateAt s K).word = true) :
    s.mem.Holds ((stateAt s K).cpu.pc + 4) := by
  apply Decidable.byContradiction
  intro hout
  obtain ⟨m, hm⟩ := hall (entersAt s.widened K)
  obtain ⟨wide, -, hin⟩ := exists_inStep_widened hs hset hok (Nat.le_refl _) hm
  obtain ⟨_, hst, h⟩ := stateAt_widened hok (Nat.le_refl K)
  have hb' : InFlight.isTransfer (stateAt s.widened K).word = true := by
    rwa [hst, word_of_extends h]
  have hent : entering s.widened (entersAt s.widened K) = some K :=
    entering_eq_some_iff.mpr ⟨InFlight.ne_zero_of_isTransfer hb', rfl⟩
  obtain ⟨hstall, hpc⟩ := hin.front_of_transfer hent hb'
  rw [hst] at hpc
  have hpc' : m.cpu.pc = (stateAt s K).cpu.pc + 4 := hpc
  refine not_astray_of_forall hall hm _ (.fetch hstall ?_)
  rwa [hpc', Memory.Holds, Machine.capacity_of_after hm]

/-- Two cycles after it has entered, an instruction has been executed as in the
course, and its address is looked for. -/
theorem holds_address_of_forall {address : Word}
    (ha : (stateAt s K).effectiveAddress? = some address) :
    (stateAt s K).mem.Holds address := by
  apply Decidable.byContradiction
  intro hout
  rw [← State.address_executed] at ha
  obtain ⟨x, hx, rfl⟩ := Option.map_eq_some_iff.mp ha
  obtain ⟨e, he, hx⟩ := Option.bind_eq_some_iff.mp hx
  obtain ⟨d, hd, rfl⟩ := Option.map_eq_some_iff.mp he
  obtain ⟨_, hst, h⟩ := stateAt_widened hok (Nat.le_refl K)
  have hd' : (stateAt s.widened K).decoded = some d := by rw [hst, decoded_of_extends h, hd]
  have h0 : (stateAt s.widened K).word ≠ 0 :=
    fun h0 => absurd ((decoded_of_word_zero h0).symm.trans hd') nofun
  have hent : entering s.widened (entersAt s.widened K) = some K :=
    entering_eq_some_iff.mpr ⟨h0, rfl⟩
  obtain ⟨m, hm⟩ := hall (entersAt s.widened K)
  obtain ⟨m₁, hm₁⟩ := hall (entersAt s.widened K + 1)
  obtain ⟨m₂, hm₂⟩ := hall (entersAt s.widened K + 2)
  obtain ⟨wide, hext, hin⟩ := exists_inStep_widened hs hset hok (Nat.le_refl _) hm
  -- only the cycle that decodes it needs the widened memory: what it is then is all
  -- that its execution depends on
  have hdec : m₁.slots.decode = some d := by
    obtain ⟨wide', hstep, -⟩ :=
      Machine.step_of_extends hext ((Machine.after_succ hm).symm.trans hm₁)
    have hslot := hin.decode_of_step (neverFaults_widened s) hstep
    rwa [hent, Option.bind_some, hd'] at hslot
  have hexe : m₂.slots.execute = some d.execute.1 := by
    obtain ⟨f, a, r, -, -, -, rfl⟩ :=
      Machine.step_eq_ok_iff.mp ((Machine.after_succ hm₁).symm.trans hm₂)
    rw [(Machine.assembled_back m₁ f a r).1, Machine.executing, hdec]
    rfl
  refine not_astray_of_forall hall hm₂ _ (.access hexe hx ?_)
  rw [Memory.Holds, Machine.capacity_of_after hm₂]
  rwa [Memory.Holds, capacity_stateAt] at hout

end

/-- Cycle after cycle goes through if the course never faults and every branch or
jump that is executed has memory behind it, and not otherwise. -/
theorem forall_after_iff (hs : s.cpu.stall = false) (hset : FetchesSettled s) :
    (∀ n, ∃ m, (Machine.start s).after n = .ok m) ↔ NeverFaults s ∧ TransfersInside s := by
  constructor
  · intro hall
    have hf : NeverFaults s := by
      intro k
      induction k using Nat.strongRecOn with
      | ind K hok =>
        rcases step_or_astray (stateAt s K) with h | ⟨address, hout, hb⟩
        · exact h
        cases hout with
        | fetch hn =>
          have hword (j : Nat) (hj : j < K) := word_ne_zero_of_error hok hb hj
          exact absurd (holds_pc_of_forall hs hset hok hall hword) hn
        | access ha hn => exact absurd (holds_address_of_forall hs hset hok hall ha) hn
    exact ⟨hf, fun k => holds_behind_of_forall hs hset (fun j _ => hf j) hall⟩
  · intro ⟨hf, hti⟩ n
    obtain ⟨m, hm, -⟩ := exists_inStep hs hf hset hti n
    exact ⟨m, hm⟩

/-! ## Runs -/

/-- A run does not fault if what its steps preserve keeps them from faulting. -/
theorem Run.ending_go {σ : Type} {step : σ → Except (Breakdown σ) (Option σ)} (P : σ → Prop)
    (h : ∀ x, P x → ∃ o, step x = .ok o ∧ ∀ y, o = some y → P y) {x : σ} (hx : P x)
    (budget i : Nat) : (go step (nobody σ) budget i x ()).ending = .complete := by
  induction budget generalizing i x with
  | zero => rfl
  | succ budget ih =>
    obtain ⟨o, ho, hP⟩ := h x hx
    cases o with
    | none => simp only [go, ho]
    | some y =>
      simp only [go, ho, nobody]
      exact ih (hP y rfl) (i + 1)

/-- A run that makes its steps up to one that faults ends with a fault. -/
theorem Run.exists_fault {σ : Type} {step : σ → Except (Breakdown σ) (Option σ)}
    (P : Nat → σ → Prop) {C : Nat}
    (hstep : ∀ k x, k < C → P k x → ∃ y, step x = .ok (some y) ∧ P (k + 1) y)
    (hend : ∀ x, P C x → ∃ b, step x = .error b) {x : σ} (hx : P 0 x) :
    ∃ budget f, (go step (nobody σ) budget 0 x ()).ending = .fault f := by
  have hreach : C ≤ 0 + (C + 1) := by omega
  obtain ⟨y, hy, hgo⟩ := go_reaches P hstep hx (Nat.zero_le C) hreach
  obtain ⟨b, hb⟩ := hend y hy
  refine ⟨C + 1, b.fault, ?_⟩
  rw [hgo, show 0 + (C + 1) - C = 1 by omega]
  simp only [go, hb]

theorem exists_first {p : Nat → Prop} (h : ¬∀ n, p n) : ∃ n, ¬p n ∧ ∀ j, j < n → p j := by
  classical
  have hex := Classical.not_forall.mp h
  exact ⟨Nat.find hex, Nat.find_spec hex, fun j hj => Classical.not_not.mp (Nat.find_min hex hj)⟩

theorem Sequential.exists_fault_iff :
    (∃ budget f, (Sequential.run budget s).ending = .fault f) ↔ ¬NeverFaults s := by
  constructor
  · rintro ⟨budget, f, hrun⟩ hf
    have hcomplete : (Sequential.run budget s).ending = .complete := by
      refine Run.ending_go (fun x => ∃ k, x = stateAt s k) ?_ ⟨0, rfl⟩ budget 0
      rintro x ⟨k, rfl⟩
      obtain ⟨o, ho⟩ := hf k
      refine ⟨o, ho, ?_⟩
      rintro y rfl
      exact ⟨k + 1, (next_of_step ho).symm⟩
    exact absurd (hcomplete.symm.trans hrun) nofun
  · intro hf
    obtain ⟨K, hK, hok⟩ := exists_first hf
    cases hb : step (stateAt s K) with
    | ok o => exact absurd ⟨o, hb⟩ hK
    | error b =>
      refine Run.exists_fault (fun k x => x = stateAt s k) ?_ (C := K) ?_ rfl
      · rintro k x hk rfl
        obtain ⟨o, ho⟩ := hok k hk
        cases o with
        | none =>
          exact absurd ((word_eq_zero_iff ho).mpr rfl) (word_ne_zero_of_error hok hb hk)
        | some y => exact ⟨y, ho, (next_of_step ho).symm⟩
      · rintro x rfl
        exact ⟨b, hb⟩

namespace Machine

/-- A machine that is started outside memory is idle, and its run is no run. -/
theorem run_of_outside (hs : s.cpu.stall = false) (hout : ¬s.Inside) (budget : Nat) :
    (start s).run budget = ⟨start s, 0, (), .complete⟩ := by
  have hno : s.nothingToFetch = true := by
    rw [State.nothingToFetch, Memory.read_of_not_holds hout]
  have hidle : (start s).isIdle = true :=
    isIdle_eq_true_iff.mpr ⟨fun x => by cases x <;> rfl, hs, hno⟩
  cases budget with
  | zero => rfl
  | succ budget => simp only [run, runWith, Run.go, stepUnlessIdle, hidle, if_true]

/-- On its way to a fault a machine that has started in memory is not idle. -/
theorem not_isIdle_of_after (hs : s.cpu.stall = false) (hin : s.Inside) {N : Nat}
    (hN : ¬∃ m, (start s).after N = .ok m) (hn : n ≤ N) (hm : (start s).after n = .ok m) :
    m.isIdle = false := by
  rw [← Bool.not_eq_true]
  intro hi
  have hholds : m.mem.Holds m.cpu.pc := by
    cases n with
    | zero =>
      obtain rfl := Except.ok.inj hm
      exact hin
    | succ n =>
      obtain ⟨m', hm', hstep⟩ := exists_of_after_succ hm
      exact holds_of_isIdle (reachable_of_after hs hm') hstep hi
  refine hN ⟨m, ?_⟩
  rw [← Nat.add_sub_cancel' hn, after_add hm, after_of_isIdle hi hholds]

theorem exists_fault_iff (hs : s.cpu.stall = false) (hin : s.Inside) :
    (∃ budget f, ((start s).run budget).ending = .fault f) ↔
      ¬∀ n, ∃ m, (start s).after n = .ok m := by
  constructor
  · rintro ⟨budget, f, hrun⟩ hall
    have hcomplete : ((start s).run budget).ending = .complete := by
      refine Run.ending_go (fun m => ∃ n, (start s).after n = .ok m) ?_ ⟨0, rfl⟩ budget 0
      rintro m ⟨n, hm⟩
      cases hi : m.isIdle with
      | true => exact ⟨none, by rw [stepUnlessIdle, if_pos hi], fun _ hy => by cases hy⟩
      | false =>
        obtain ⟨m', hm'⟩ := hall (n + 1)
        have hstep := (after_succ hm).symm.trans hm'
        refine ⟨some m', by rw [stepUnlessIdle, hi, hstep]; rfl, ?_⟩
        rintro y ⟨⟩
        exact ⟨n + 1, hm'⟩
    cases hcomplete.symm.trans hrun
  · intro hnot
    obtain ⟨N, hN, hok⟩ := exists_first hnot
    cases N with
    | zero => exact absurd ⟨_, rfl⟩ hN
    | succ C =>
      -- the first `C` cycles go through and the next one faults, none of them on an
      -- idle machine
      refine Run.exists_fault (fun n m => (start s).after n = .ok m) (C := C) ?_ ?_ rfl
      · intro n m hn hm
        obtain ⟨m', hm'⟩ := hok (n + 1) (by omega)
        have hi := not_isIdle_of_after hs hin hN (by omega) hm
        exact ⟨m', by rw [stepUnlessIdle, hi, (after_succ hm).symm.trans hm']; rfl, hm'⟩
      · intro m hm
        have hi := not_isIdle_of_after hs hin hN (Nat.le_succ C) hm
        rw [after_succ hm] at hN
        cases hb : m.step with
        | ok m' => exact absurd ⟨m', hb⟩ hN
        | error b => exact ⟨b, by rw [stepUnlessIdle, hi, hb]; rfl⟩

end Machine

/-! ## Where the two differ -/

/-- A program that is started outside memory faults at once, and the pipeline has
nothing to do. Otherwise the pipeline faults for some budget exactly if sequential
execution does, or comes to a branch or jump without memory right behind it. -/
theorem runs_fault_iff (hs : s.cpu.stall = false) (hset : FetchesSettled s) :
    (¬s.Inside →
      (∀ budget, (Machine.start s).run budget = ⟨Machine.start s, 0, (), .complete⟩) ∧
        ∃ budget f, (Sequential.run budget s).ending = .fault f) ∧
    (s.Inside →
      ((∃ budget f, ((Machine.start s).run budget).ending = .fault f) ↔
        (∃ budget f, (Sequential.run budget s).ending = .fault f) ∨
          ∃ k, InFlight.isTransfer (stateAt s k).word = true ∧
            ¬s.mem.Holds ((stateAt s k).cpu.pc + 4))) := by
  refine ⟨fun hout => ⟨Machine.run_of_outside hs hout, ?_⟩, fun hin => ?_⟩
  · refine Sequential.exists_fault_iff.mpr fun hf => ?_
    obtain ⟨o, ho⟩ := hf 0
    exact hout (inside_of_step ho)
  · rw [Machine.exists_fault_iff hs hin, forall_after_iff hs hset, Sequential.exists_fault_iff,
      Classical.not_and_iff_not_or_not]
    refine or_congr_right ?_
    simp only [TransfersInside, Memory.Holds, Classical.not_forall, exists_prop]

/-- A jump to the last word of memory, a zero word, and a jump back to it. -/
def edge : State :=
  { cpu := .reset
    mem := ((Memory.zeroed 3).set 0 0x0080006f (by decide)).set 2 0xffdff06f (by decide) }

theorem haltsAfter_edge : HaltsAfter edge 2 := by decide

/-- The second jump is the last word of memory, so the pipeline faults, though the
program ends. -/
theorem runs_fault_at_edge :
    (∃ budget f, ((Machine.start edge).run budget).ending = .fault f) ∧
      ¬∃ budget f, (Sequential.run budget edge).ending = .fault f := by
  have hset : FetchesSettled edge := haltsAfter_edge.fetchesSettled (by decide)
  have hin : edge.Inside := by unfold State.Inside; decide
  refine ⟨((runs_fault_iff rfl hset).2 hin).mpr (.inr ⟨1, by decide, by decide⟩), ?_⟩
  rw [Sequential.exists_fault_iff]
  exact not_not_intro haltsAfter_edge.neverFaults

/-- A start right behind a memory of one word. -/
def beyond : State := { cpu := { Cpu.reset with pc := 4 }, mem := .zeroed 1 }

/-- No step of `edge` changes a word that any step fetches, and no run of it faults
but that of the pipeline. The machine that starts at `beyond` is idle, and
sequential execution faults there. -/
theorem faults_differ :
    (edge.cpu.stall = false ∧
      (∀ j k, (stateAt edge (j + 1)).mem.cell (stateAt edge k).cpu.pc.cellOf
        = (stateAt edge j).mem.cell (stateAt edge k).cpu.pc.cellOf) ∧
      ((Machine.start edge).run 7).ending = .fault (.load ⟨12⟩) ∧
      ∀ budget f, (Sequential.run budget edge).ending ≠ .fault f) ∧
    (Machine.start beyond).isIdle = true ∧
      (Sequential.run 1 beyond).ending = .fault (.load ⟨4⟩) := by
  refine ⟨⟨rfl, fun j k => ?_, by decide, fun budget f hrun => ?_⟩, by decide, by decide⟩
  · rcases Nat.lt_or_ge j 2 with hj | hj
    · have hcell : ∀ j, j < 2 → ∀ k, k < 3 →
          (stateAt edge (j + 1)).mem.cell (stateAt edge k).cpu.pc.cellOf
            = (stateAt edge j).mem.cell (stateAt edge k).cpu.pc.cellOf := by decide
      rcases Nat.lt_or_ge k 3 with hk | hk
      · exact hcell j hj k hk
      · rw [haltsAfter_edge.stateAt_eq (k := k) (by omega)]
        exact hcell j hj 2 (by decide)
    · rw [haltsAfter_edge.stateAt_eq hj, haltsAfter_edge.stateAt_eq (Nat.le_succ_of_le hj)]
  · exact Sequential.exists_fault_iff.mp ⟨budget, f, hrun⟩ haltsAfter_edge.neverFaults

end FiveStage
