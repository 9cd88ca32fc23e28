import FiveStage.Proofs.Phases

/-
  Commit — the pipeline retires what sequential execution completes, in order

  The records that have been in the last slot, in the order of the cycles, are
  compared with the records that the steps of the course end with. Steps that skip
  a word they do not know have no record, so the state right after an instruction
  is found by counting steps, not instructions.

  What is proved:
    1. `retired_eq` — what has been retired by the end of cycle `n` is what the
       steps before `begun s (n - 4)` complete.
    2. `exists_last_completed` — skipped words leave the registers and memory as
       the last instruction has left them.
    3. `commit_in_order` — after any number of cycles the retired records are
       completed ones, in order and complete in every field, the registers are
       those right after the last of them, and memory is that right after the
       instruction in the memory slot, if there is one.
-/

namespace FiveStage

open FiveStage.Sequential

/-- The records that the steps before step `k` complete. -/
def Sequential.completedBy (s : State) (k : Nat) : List InFlight :=
  (List.range k).filterMap fun j => (stateAt s j).completed

/-- The records that have been in the last slot at the end of one of `n` cycles. -/
def Machine.retired (m : Machine) (n : Nat) : List InFlight :=
  (List.range n).filterMap fun c => (m.after (c + 1)).toOption.bind (·.slots.writeBack)

variable {s : State} {n : Nat}

theorem completedBy_succ (s : State) (k : Nat) :
    completedBy s (k + 1) = completedBy s k ++ (stateAt s k).completed.toList := by
  unfold completedBy
  rw [List.range_succ, List.filterMap_append]
  cases h : (stateAt s k).completed <;> simp [h]

theorem retired_succ {m m' : Machine} (h : m.after (n + 1) = .ok m') :
    m.retired (n + 1) = m.retired n ++ m'.slots.writeBack.toList := by
  unfold Machine.retired
  rw [List.range_succ, List.filterMap_append]
  cases hw : m'.slots.writeBack <;> simp [h, hw, Except.toOption]

theorem retired_eq (hs : s.cpu.stall = false) (hf : NeverFaults s) (hset : FetchesSettled s)
    (hti : TransfersInside s) (n : Nat) :
    (Machine.start s).retired n = completedBy s (begun s (n - 4)) := by
  induction n with
  | zero => rfl
  | succ n ih =>
    -- what is retired in a cycle is what has entered four cycles before
    obtain ⟨m, hm, hin⟩ := exists_inStep hs hf hset hti (n + 1)
    rw [retired_succ hm, ih, hin.writeBack]
    have hsub : n + 1 - 4 - 1 = n - 4 := rfl
    rcases begun_cases (s := s) (n + 1 - 4) with ⟨he, hb⟩ | ⟨he, hb⟩
    · rw [he, hb, hsub]
      exact List.append_nil _
    · rw [he, hb, hsub, completedBy_succ]
      rfl

/-- Going back over skipped words one finds the last completed instruction, or
the beginning. -/
theorem exists_last_completed (hf : NeverFaults s) (c : Nat) :
    ∃ k, completedBy s k = completedBy s c ∧
      (k = 0 ∨ (stateAt s (k - 1)).completed.isSome = true) ∧
      (stateAt s k).cpu.regs = (stateAt s c).cpu.regs ∧
      (stateAt s k).mem = (stateAt s c).mem := by
  induction c with
  | zero => exact ⟨0, rfl, .inl rfl, rfl, rfl⟩
  | succ c ih =>
    obtain ⟨o, ho⟩ := hf c
    cases hc : (stateAt s c).completed with
    | some r => exact ⟨c + 1, rfl, .inr (Option.isSome_iff_exists.mpr ⟨r, hc⟩), rfl, rfl⟩
    | none =>
      -- step `c` has skipped a word, so what holds after it held before it
      obtain ⟨k, hl, hk, hregs, hmem⟩ := ih
      obtain ⟨hm, hr⟩ := next_of_not_decoded ho (decoded_of_not_completed ho hc)
      refine ⟨k, ?_, hk, hregs.trans hr.symm, hmem.trans hm.symm⟩
      rw [completedBy_succ, hc, hl]
      exact (List.append_nil _).symm

theorem InStep.mem_of_memory_none {m : Machine} (h : InStep s n m) (hf : NeverFaults s)
    (hm : m.slots.memory = none) : m.mem = (stateAt s (begun s (n - 4))).mem := by
  have hsub : n - 3 - 1 = n - 4 := rfl
  rw [h.mem]
  rcases begun_cases (s := s) (n - 3) with ⟨-, hb⟩ | ⟨he, hb⟩
  · rw [hb, hsub]
  · rw [hb, hsub]
    rw [h.memory, he, hsub, Option.bind_some] at hm
    obtain ⟨o, ho⟩ := hf (begun s (n - 4))
    exact (next_of_not_decoded ho (decoded_of_not_accessed ho hm)).1

/-- The instruction in the memory slot is the next to be retired, and memory is
that right after it. -/
theorem InStep.mem_of_memory_some {m : Machine} (h : InStep s n m) (hf : NeverFaults s)
    {a : InFlight} (hm : m.slots.memory = some a) :
    (stateAt s (begun s (n - 4))).completed = some { a with stage := .writeBack } ∧
      m.mem = (stateAt s (begun s (n - 4) + 1)).mem := by
  have hsub : n - 3 - 1 = n - 4 := rfl
  rw [h.memory] at hm
  rcases begun_cases (s := s) (n - 3) with ⟨he, -⟩ | ⟨he, hb⟩
  · rw [he] at hm
    exact absurd hm nofun
  · rw [he, hsub, Option.bind_some] at hm
    obtain ⟨o, ho⟩ := hf (begun s (n - 4))
    obtain ⟨r, hw, hc⟩ := writeBack_accessed ho hm
    obtain ⟨rfl, -⟩ := InFlight.writeBack_eq_ok_iff.mp hw
    exact ⟨hc, by rw [h.mem, hb, hsub]⟩

/-- What has been retired after `n` cycles are the first records that sequential
execution completes. Say that they are completed before step `k`, with the last
of them in the step before it. Then the registers are those in which step `k` is
made, and so is memory if the memory slot is empty. Else the slot holds the next
record to be completed, and memory is that right after it. -/
theorem commit_in_order (hs : s.cpu.stall = false) (hf : NeverFaults s) (hset : FetchesSettled s)
    (hti : TransfersInside s) (n : Nat) :
    ∃ m k, (Machine.start s).after n = .ok m ∧
      (Machine.start s).retired n = completedBy s k ∧
      (k = 0 ∨ (stateAt s (k - 1)).completed.isSome = true) ∧
      m.cpu.regs = (stateAt s k).cpu.regs ∧
      (m.slots.memory = none → m.mem = (stateAt s k).mem) ∧
      ∀ a, m.slots.memory = some a →
        ∃ j, completedBy s j = completedBy s k ∧
          (stateAt s j).completed = some { a with stage := .writeBack } ∧
          m.mem = (stateAt s (j + 1)).mem := by
  obtain ⟨m, hm, hin⟩ := exists_inStep hs hf hset hti n
  obtain ⟨k, hl, hk, hregs, hmem⟩ := exists_last_completed hf (begun s (n - 4))
  refine ⟨m, k, hm, ?_, hk, hin.regs.trans hregs.symm, ?_, ?_⟩
  · rw [retired_eq hs hf hset hti, hl]
  · exact fun hnone => (hin.mem_of_memory_none hf hnone).trans hmem.symm
  · intro a ha
    obtain ⟨hc, hmem'⟩ := hin.mem_of_memory_some hf ha
    exact ⟨begun s (n - 4), hl.symm, hc, hmem'⟩

/-- Twelve cycles into the program three records are retired, and the store that
comes next has already changed memory. -/
theorem commit_of_detour :
    ∃ m k a j, (Machine.start detour).after 12 = .ok m ∧
      (Machine.start detour).retired 12 = completedBy detour k ∧
      (completedBy detour k).length = 3 ∧ m.cpu.regs = (stateAt detour k).cpu.regs ∧
      m.slots.memory = some a ∧ m.mem = (stateAt detour (j + 1)).mem ∧ m.mem.cell 8 = 14 := by
  obtain ⟨m, k, hm, hret, -, hregs, -, hmem⟩ := commit_in_order rfl haltsAfter_detour.neverFaults
    fetchesSettled_detour transfersInside_detour 12
  have hlen : ((Machine.start detour).retired 12).length = 3 := by decide
  have hslot : ((Machine.start detour).after 12).toOption.map
      (fun m => (m.slots.memory.isSome, m.mem.cell 8)) = some (true, 14) := by decide
  rw [hm] at hslot
  simp only [Except.toOption, Option.map_some, Option.some.injEq, Prod.mk.injEq] at hslot
  obtain ⟨a, ha⟩ := Option.isSome_iff_exists.mp hslot.1
  obtain ⟨j, -, -, hj⟩ := hmem a ha
  exact ⟨m, k, a, j, hm, hret, hret ▸ hlen, hregs, ha, hj, hslot.2⟩

end FiveStage
