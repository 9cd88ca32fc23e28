import FiveStage.Proofs.Course
import FiveStage.Proofs.Isolation

/-
  Stage order — the five stages of a cycle may run in any order

  Every stage fills a slot of its own and takes its instruction from the slots as
  they stood at the start of the cycle. Two pairs share more than that: memory
  access may store where fetching reads, and write-back writes the registers that
  decoding samples. The first matters only if the store is to the very word that is
  fetched. The second is put right by forwarding, which supplies what has just been
  written back whether or not decoding has seen it. An instruction that is sent
  back for a load is not forwarded to, so its operands tell which of the two came
  first; but it is decoded again from its word, and they are never looked at.

  What is proved:
    1. `act_partly`, `perform_partly` — a cycle in which some stages have run is
       told by which they are, and by what decoding has sampled.
    2. `alike_settle` — the two outcomes of decoding lead to machines that are
       `Alike`, and to one machine if nothing is sent back.
    3. `stepIn_of_alike`, `after_of_alike` — alike machines become one machine in
       the next cycle.
    4. `stages_commute` — so the order of the stages does not matter.
-/

namespace FiveStage

/-! ## Operands that are supplied twice -/

namespace Hazard

theorem supply_supply (w : RegWrite) (i : InFlight) : supply w (supply w i) = supply w i := by
  unfold supply InFlight.source1 InFlight.source2
  dsimp only
  split <;> split <;> rfl

theorem supplyFrom_supplyFrom (slot : Option InFlight) (i : InFlight) :
    supplyFrom slot (supplyFrom slot i) = supplyFrom slot i := by
  unfold supplyFrom
  cases slot.bind InFlight.result with
  | none => rfl
  | some w => exact supply_supply w i

/-- The oldest instruction ahead supplies its operands when forwarding, whether or
not it has done so before. -/
theorem forward_supplyFrom (slots : Slots) (i : InFlight) :
    forward slots (supplyFrom slots.writeBack i) = forward slots i := by
  rw [forward_eq, forward_eq, supplyFrom_supplyFrom]

end Hazard

/-! ## Machines that differ in what is never looked at -/

namespace InFlight

/-- The record without the values of its operands. -/
def withoutOperands (i : InFlight) : InFlight := { i with rs1Value := 0, rs2Value := 0 }

/-- Decoding starts from the word. -/
theorem bind_decode?_of_withoutOperands {x y : Option InFlight}
    (h : x.map withoutOperands = y.map withoutOperands) (regs : Registers) :
    x.bind (·.decode? regs) = y.bind (·.decode? regs) := by
  have hd (z : Option InFlight) :
      z.bind (·.decode? regs) = (z.map withoutOperands).bind (·.decode? regs) := by
    cases z <;> rfl
  rw [hd x, h, ← hd y]

end InFlight

/-- A store leaves the other cells alone. -/
theorem Memory.cell_of_store {mem mem' : Memory} {address w : Word}
    (h : mem.store address w = .ok mem') {i : Nat} (hi : address.cellOf ≠ i) :
    mem'.cell i = mem.cell i := by
  unfold store write at h
  split at h
  · obtain rfl := Except.ok.inj h
    rw [cell_set, if_neg hi]
  · cases h

namespace Machine

/-- Two machines that differ at most in the operand values of what is in the first
slot. -/
structure Alike (m n : Machine) : Prop where
  cpu : n.cpu = m.cpu
  mem : n.mem = m.mem
  behind : ∀ x : Stage, x ≠ .fetch → n.slots.at x = m.slots.at x
  first : n.slots.fetch.map InFlight.withoutOperands = m.slots.fetch.map InFlight.withoutOperands

variable {m n m' : Machine}

theorem Alike.refl (m : Machine) : Alike m m := ⟨rfl, rfl, fun _ _ => rfl, rfl⟩

theorem act_of_alike (h : Alike m n) (c : Cycle) (s : Stage) :
    c.act n.slots s = c.act m.slots s := by
  cases s with
  | fetch => rfl
  | decode =>
    have hd := InFlight.bind_decode?_of_withoutOperands h.first c.cpu.regs
    simp only [Cycle.act, Cycle.decode, hd]
  | execute =>
    have hs : n.slots.decode = m.slots.decode := h.behind .decode (by decide)
    simp only [Cycle.act, Cycle.execute, hs]
  | memory =>
    have hs : n.slots.execute = m.slots.execute := h.behind .execute (by decide)
    simp only [Cycle.act, Cycle.memory, hs]
  | writeBack =>
    have hs : n.slots.memory = m.slots.memory := h.behind .memory (by decide)
    simp only [Cycle.act, Cycle.writeBack, hs]

theorem perform_of_alike (h : Alike m n) (order : List Stage) (c : Cycle) :
    Cycle.perform n.slots order c = Cycle.perform m.slots order c := by
  induction order generalizing c with
  | nil => rfl
  | cons s rest ih =>
    simp only [Cycle.perform, act_of_alike h]
    cases c.act m.slots s with
    | error f => rfl
    | ok c' => exact ih c'

/-- In the next cycle the difference is gone. A cycle that faults keeps it. -/
theorem stepIn_of_alike (h : Alike m n) (order : List Stage) :
    (∀ m', m.stepIn order = .ok m' → n.stepIn order = .ok m') ∧
      ∀ b, m.stepIn order = .error b →
        ∃ b', n.stepIn order = .error b' ∧ b'.fault = b.fault ∧ Alike b.state b'.state := by
  unfold stepIn
  rw [h.cpu, h.mem, perform_of_alike h]
  cases Cycle.perform m.slots order (Cycle.start m.cpu m.mem) with
  | ok c => exact ⟨fun m' hm => hm, fun b hb => absurd hb nofun⟩
  | error e =>
    refine ⟨fun m' hm => absurd hm nofun, fun b hb => ⟨_, rfl, ?_⟩⟩
    obtain rfl := Except.error.inj hb
    exact ⟨rfl, { cpu := rfl, mem := rfl, behind := h.behind, first := h.first }⟩

theorem after_of_alike (h : Alike m n) (k : Nat) :
    (∀ m', m.after (k + 1) = .ok m' → n.after (k + 1) = .ok m') ∧
      ∀ b, m.after (k + 1) = .error b →
        ∃ b', n.after (k + 1) = .error b' ∧ b'.fault = b.fault ∧ Alike b.state b'.state := by
  induction k with
  | zero => exact stepIn_of_alike h Stage.all
  | succ k ih =>
    cases hk : m.after (k + 1) with
    | ok p =>
      -- from here on they are one machine
      have heq : n.after (k + 1 + 1) = m.after (k + 1 + 1) := by
        rw [after_succ hk, after_succ (ih.1 p hk)]
      rw [heq]
      exact ⟨fun m' hm => hm, fun b hb => ⟨b, hb, rfl, .refl _⟩⟩
    | error e =>
      obtain ⟨e', he', hfault, halike⟩ := ih.2 e hk
      have hm : m.after (k + 1 + 1) = .error e := by rw [after, hk]
      have hn : n.after (k + 1 + 1) = .error e' := by rw [after, he']
      rw [hm, hn]
      constructor
      · intro m' hm
        cases hm
      · intro b hb
        obtain rfl := Except.error.inj hb
        exact ⟨e', rfl, hfault, halike⟩

end Machine

/-! ## What the order of decoding and write-back changes -/

namespace Hazard

variable {slots : Slots} {i : InFlight}

theorem isControlFlow_supplyFrom (slot : Option InFlight) (i : InFlight) :
    (supplyFrom slot i).isControlFlow = i.isControlFlow := by
  unfold supplyFrom
  split <;> rfl

theorem pc_supplyFrom (slot : Option InFlight) (i : InFlight) : (supplyFrom slot i).pc = i.pc := by
  unfold supplyFrom
  split <;> rfl

/-- Operands that are there already make a difference only to an instruction that is
sent back. -/
theorem resolve_supplied (hd : slots.decode = some i) (cpu : Cpu) :
    resolve { slots with decode := some (supplyFrom slots.writeBack i) } cpu
      = if awaitsLoad slots i then
          (replay slots (supplyFrom slots.writeBack i), (resolve slots cpu).2)
        else resolve slots cpu := by
  have hfwd := forward_supplyFrom slots i
  have hpc := pc_supplyFrom slots.writeBack i
  have hcf := isControlFlow_supplyFrom slots.writeBack i
  generalize hj : supplyFrom slots.writeBack i = j at hfwd hpc hcf
  have hrel : release { slots with decode := some j } cpu = release slots cpu := rfl
  have hawait : awaitsLoad { slots with decode := some j } j = awaitsLoad slots i := by
    rw [InFlight.awaitsLoad_eq, InFlight.awaitsLoad_eq]
    simp only [← hj, InFlight.awaits_supplyFrom]
  cases hw : awaitsLoad slots i with
  | true =>
    rw [hw] at hawait
    rw [resolve_of_replay rfl hawait, resolve_of_replay hd hw, hrel, hpc, hcf]
    rfl
  | false =>
    rw [hw] at hawait
    cases hi : i.isControlFlow with
    | true =>
      rw [hi] at hcf
      rw [resolve_of_transfer rfl hcf hawait, resolve_of_transfer hd hi hw, hrel, ← hfwd]
      rfl
    | false =>
      rw [hi] at hcf
      rw [resolve_of_plain rfl hcf hawait, resolve_of_plain hd hi hw, hrel, ← hfwd]
      rfl

end Hazard

namespace Cycle

/-- The cycle in which decoding has seen what has just been written back. -/
def supplied (c : Cycle) : Cycle :=
  { c with
    next := { c.next with decode := c.next.decode.map (Hazard.supplyFrom c.next.writeBack) } }

/-- What is sent back has the same address, whatever its operands. -/
theorem alike_of_replay (slots : Slots) (i : InFlight) (slot : Option InFlight) (cpu : Cpu)
    (mem : Memory) :
    Machine.Alike ⟨advance (Hazard.replay slots i) cpu, mem, Hazard.replay slots i⟩
      ⟨advance (Hazard.replay slots (Hazard.supplyFrom slot i)) cpu, mem,
        Hazard.replay slots (Hazard.supplyFrom slot i)⟩ := by
  constructor
  · unfold Hazard.supplyFrom
    split <;> rfl
  · rfl
  · intro x hx
    cases x with
    | fetch => exact absurd rfl hx
    | decode | execute | memory | writeBack => rfl
  · unfold Hazard.supplyFrom
    split <;> rfl

theorem settle_eq {c : Cycle} {p : Slots × Cpu}
    (h : Hazard.resolve c.next { c.cpu with pc := c.redirect.getD c.cpu.pc } = p) :
    c.settle = ⟨advance p.1 p.2, c.mem, p.1⟩ := by
  rw [← h]
  rfl

/-- The machine after a cycle is the same up to what is never looked at, and the
same altogether if nothing is sent back. -/
theorem alike_settle (c : Cycle) :
    Machine.Alike c.settle c.supplied.settle ∧
      (c.next.decode.any (Hazard.awaitsLoad c.next) = false → c.supplied.settle = c.settle) := by
  cases hd : c.next.decode with
  | none =>
    have hsame : c.supplied = c := by
      rw [supplied, hd, Option.map_none, ← hd]
    rw [hsame]
    exact ⟨.refl _, fun _ => rfl⟩
  | some i =>
    have hsup := Hazard.resolve_supplied hd { c.cpu with pc := c.redirect.getD c.cpu.pc }
    have hnext : c.supplied.next
        = { c.next with decode := some (Hazard.supplyFrom c.next.writeBack i) } := by
      rw [supplied, hd, Option.map_some]
    rw [← hnext] at hsup
    rw [Option.any_some, settle_eq hsup, settle_eq rfl]
    cases hw : Hazard.awaitsLoad c.next i with
    | false => exact ⟨.refl _, fun _ => rfl⟩
    | true =>
      refine ⟨?_, nofun⟩
      rw [Hazard.resolve_of_replay hd hw]
      exact alike_of_replay c.next i c.next.writeBack _ c.mem

end Cycle

namespace Machine

/-! ## A cycle in which some stages have run -/

/-- A cycle of which the stages `done` have run, where the three stages that can
fault bring `f`, `a` and `r`, and decoding brings `d`. -/
def partly (m : Machine) (f : Option InFlight) (a : Option InFlight × Memory)
    (r : Option InFlight × Registers) (d : Option InFlight) (done : List Stage) : Cycle :=
  { cpu := { m.cpu with regs := if .writeBack ∈ done then r.2 else m.cpu.regs }
    mem := if .memory ∈ done then a.2 else m.mem
    next :=
      { fetch := if .fetch ∈ done then f else none
        decode := if .decode ∈ done then d else none
        execute := if .execute ∈ done then m.executing else none
        memory := if .memory ∈ done then a.1 else none
        writeBack := if .writeBack ∈ done then r.1 else none }
    redirect := if .execute ∈ done then m.redirecting else none }

/-- What decoding brings: it has sampled the registers before write-back or after. -/
def Samples (m : Machine) (r : Option InFlight × Registers) (d : Option InFlight) : Prop :=
  d = m.decoding ∨ d = m.decoding.map (Hazard.supplyFrom r.1)

/-- The instruction that is about to access memory stores into the word that is about
to be fetched. -/
def StoresIntoFetch (m : Machine) : Prop :=
  m.cpu.stall = false ∧ ∃ e x, m.slots.execute = some e ∧ e.access = some x ∧ x.kind = .store ∧
    x.address.cellOf = m.cpu.pc.cellOf

variable {m m' : Machine} {f : Option InFlight} {a : Option InFlight × Memory}
  {r : Option InFlight × Registers} {d : Option InFlight} {done : List Stage}

theorem fetch_eq_ok {c : Cycle} (h : c.cpu.stall = false → InFlight.fetch c.mem c.cpu.pc = .ok f)
    (hs : c.cpu.stall = true → f = none) :
    c.fetch = .ok { c with next := { c.next with fetch := f } } := by
  unfold Cycle.fetch
  cases hst : c.cpu.stall with
  | true =>
    rw [hs hst]
    rfl
  | false =>
    rw [h hst]
    rfl

/-- A store elsewhere does not change what is fetched. -/
theorem fetch_of_accessing (ha : m.accessing = .ok a) (hno : ¬m.StoresIntoFetch)
    (hs : m.cpu.stall = false) (hf : InFlight.fetch m.mem m.cpu.pc = .ok f) :
    InFlight.fetch a.2 m.cpu.pc = .ok f := by
  rcases accessing_cases ha with ⟨-, rfl⟩ | ⟨e, i, mem, he, hacc, rfl⟩
  · exact hf
  · rcases InFlight.accessMemory_cases hacc with
      ⟨-, -, rfl⟩ | ⟨_, _, -, -, -, rfl⟩ | ⟨x, w, hx, hk, -, hst⟩
    · exact hf
    · exact hf
    · have hin := InFlight.inside_of_fetch hf
      have hin' : m.cpu.pc.cellOf < mem.capacity := by
        rwa [InFlight.capacity_of_accessMemory hacc]
      have hne : x.address.cellOf ≠ m.cpu.pc.cellOf := fun hc =>
        hno ⟨hs, e, x, he, hx, hk, hc⟩
      rw [InFlight.fetch_of_inside hin] at hf
      rw [InFlight.fetch_of_inside hin', Memory.cell_of_store hst hne, hf]

theorem bind_decode?_retiring (h : m.retiring = .ok r) :
    m.slots.fetch.bind (·.decode? r.2) = m.decoding.map (Hazard.supplyFrom r.1) := by
  unfold decoding
  cases m.slots.fetch with
  | none => rfl
  | some g => exact decode?_retiring h g

section

variable (hf : m.fetching = .ok f) (ha : m.accessing = .ok a) (hr : m.retiring = .ok r)
  (hno : ¬m.StoresIntoFetch)

include hf ha hr hno

/-- A stage brings the same at any time of the cycle, but for decoding, which samples
the registers as they are. -/
theorem act_partly {s : Stage} (hs : s ∉ done) (hd : m.Samples r d) :
    ∃ d', m.Samples r d' ∧
      (m.partly f a r d done).act m.slots s = .ok (m.partly f a r d' (s :: done)) := by
  cases s with
  | fetch =>
    refine ⟨d, hd, ?_⟩
    have hfetch (hst : m.cpu.stall = false) :
        InFlight.fetch (m.partly f a r d done).mem m.cpu.pc = .ok f := by
      rw [fetching_of_unstalled hst] at hf
      unfold partly
      dsimp only
      split
      · exact fetch_of_accessing ha hno hst hf
      · exact hf
    have hnone (hst : m.cpu.stall = true) : f = none := by
      rw [fetching_of_stall hst] at hf
      exact (Except.ok.inj hf).symm
    show (m.partly f a r d done).fetch = _
    rw [fetch_eq_ok hfetch hnone]
    simp only [partly, List.mem_cons, reduceCtorEq, false_or, true_or, if_true]
  | decode =>
    refine ⟨if .writeBack ∈ done then m.decoding.map (Hazard.supplyFrom r.1) else m.decoding,
      ?_, ?_⟩
    · split
      · exact .inr rfl
      · exact .inl rfl
    · have hdec : m.slots.fetch.bind (·.decode? (m.partly f a r d done).cpu.regs)
          = if .writeBack ∈ done then m.decoding.map (Hazard.supplyFrom r.1) else m.decoding := by
        unfold partly
        dsimp only
        split
        · exact bind_decode?_retiring hr
        · rfl
      refine congrArg Except.ok ?_
      rw [Cycle.decode, hdec]
      simp only [partly, List.mem_cons, reduceCtorEq, false_or, true_or, if_true]
  | execute =>
    refine ⟨d, hd, congrArg Except.ok ?_⟩
    rw [execute_of_empty (if_neg hs)]
    simp only [partly, List.mem_cons, reduceCtorEq, false_or, true_or, if_true]
  | memory =>
    refine ⟨d, hd, ?_⟩
    have hmem : (m.partly f a r d done).mem = m.mem := if_neg hs
    show (m.partly f a r d done).memory m.slots = _
    rw [memory_of_mem hmem, ha]
    simp only [Except.map, partly, List.mem_cons, reduceCtorEq, false_or, true_or, if_true]
  | writeBack =>
    refine ⟨d, hd, ?_⟩
    have hregs : (m.partly f a r d done).cpu.regs = m.cpu.regs := if_neg hs
    show (m.partly f a r d done).writeBack m.slots = _
    rw [writeBack_of_regs hregs, hr]
    simp only [Except.map, partly, List.mem_cons, reduceCtorEq, false_or, true_or, if_true]

theorem perform_partly {order : List Stage} (hnd : order.Nodup) (hdis : ∀ s ∈ order, s ∉ done)
    (hd : m.Samples r d) :
    ∃ d', m.Samples r d' ∧ Cycle.perform m.slots order (m.partly f a r d done)
      = .ok (m.partly f a r d' (order.reverse ++ done)) := by
  -- what has run grows stage by stage, and only decoding chooses anew
  induction order generalizing d done with
  | nil => exact ⟨d, hd, rfl⟩
  | cons s rest ih =>
    obtain ⟨hs, hrest⟩ := List.nodup_cons.mp hnd
    obtain ⟨d₁, hd₁, hact⟩ := act_partly hf ha hr hno (hdis s List.mem_cons_self) hd
    have hdis' : ∀ x ∈ rest, x ∉ s :: done := by
      intro x hx hmem
      rcases List.mem_cons.mp hmem with rfl | hmem
      · exact hs hx
      · exact hdis x (List.mem_cons_of_mem s hx) hmem
    obtain ⟨d₂, hd₂, hperf⟩ := ih hrest hdis' hd₁
    refine ⟨d₂, hd₂, ?_⟩
    simp only [Cycle.perform, hact, hperf, List.reverse_cons, List.append_assoc,
      List.cons_append, List.nil_append]

end

theorem partly_of_all (hall : ∀ s, s ∈ done) :
    m.partly f a r d done
      = ⟨{ m.cpu with regs := r.2 }, a.2, ⟨f, d, m.executing, a.1, r.1⟩, m.redirecting⟩ := by
  simp only [partly, hall, if_true]

/-! ## The cycle in any order -/

/-- What the stages bring in any order makes a machine like that of the usual one, and
the same if nothing is sent back. -/
theorem alike_of_samples (hd : m.Samples r d) :
    let c : Cycle :=
      ⟨{ m.cpu with regs := r.2 }, a.2, ⟨f, d, m.executing, a.1, r.1⟩, m.redirecting⟩
    Alike (m.assembled f a r) c.settle ∧
      (m.replays = false → c.settle = m.assembled f a r) := by
  rcases hd with rfl | rfl
  · exact ⟨.refl _, fun _ => rfl⟩
  · obtain ⟨halike, hsame⟩ := Cycle.alike_settle
      ⟨{ m.cpu with regs := r.2 }, a.2, m.shifted f a.1 r.1, m.redirecting⟩
    refine ⟨halike, fun hw => hsame ?_⟩
    show m.decoding.any (Hazard.awaitsLoad (m.shifted f a.1 r.1)) = false
    cases hd : m.decoding with
    | none => rfl
    | some i => rw [Option.any_some, awaitsLoad_shifted m f a r hd, hw]

/-- Whatever the order of the stages, a cycle leads to one machine, up to the operand
values of an instruction that is sent back to the first slot; and from the next
cycle on there is no difference at all. The exception is a store into the word that
is fetched. -/
theorem stages_commute (h : m.step = .ok m') (hno : ¬m.StoresIntoFetch) {order : List Stage}
    (ho : order.Perm Stage.all) :
    ∃ n, m.stepIn order = .ok n ∧ n.cpu = m'.cpu ∧ n.mem = m'.mem ∧
      (∀ x : Stage, x ≠ .fetch → n.slots.at x = m'.slots.at x) ∧
      n.slots.fetch.map InFlight.withoutOperands = m'.slots.fetch.map InFlight.withoutOperands ∧
      (m.replays = false → n = m') ∧
      ∀ k,
        (∀ p, m'.after (k + 1) = .ok p → n.after (k + 1) = .ok p) ∧
        ∀ b, m'.after (k + 1) = .error b →
          ∃ b', n.after (k + 1) = .error b' ∧ b'.fault = b.fault ∧ Alike b.state b'.state := by
  obtain ⟨f, a, r, hf, ha, hr, rfl⟩ := step_eq_ok_iff.mp h
  have hnd : order.Nodup := ho.nodup_iff.mpr (by decide)
  have hall : ∀ s : Stage, s ∈ order.reverse ++ [] := by
    intro s
    rw [List.append_nil, List.mem_reverse, ho.mem_iff]
    cases s <;> decide
  have hdis : ∀ s ∈ order, s ∉ ([] : List Stage) := fun _ _ => List.not_mem_nil
  obtain ⟨d, hd, hperf⟩ := perform_partly (d := m.decoding) hf ha hr hno hnd hdis (.inl rfl)
  rw [partly_of_all hall] at hperf
  obtain ⟨halike, hsame⟩ := alike_of_samples (f := f) (a := a) hd
  refine ⟨_, ?_, halike.cpu, halike.mem, halike.behind, halike.first, hsame,
    after_of_alike halike⟩
  have hstart : m.partly f a r m.decoding [] = Cycle.start m.cpu m.mem := rfl
  rw [stepIn, ← hstart, hperf]

/-- The word 5 into x2, a store that is in no one's way, a load into x1 and an
addition of the two. -/
def lateOperand : State :=
  { cpu := .reset
    mem := (((((Memory.zeroed 9).set 0 0x00500113 (Nat.zero_lt_succ 8)).set 1
      0x02002023 (by decide)).set 2 0x01c02083 (by decide)).set 3 0x002081b3 (by decide)).set 7
      21 (by decide) }

/-- In the fifth cycle the addition is decoded and sent back, while x2 is written. It
has sampled the old value, or the new one if the stages run in the opposite order;
a cycle later that is forgotten. -/
theorem stages_commute_at_lateOperand :
    ∃ m m' n p, (start lateOperand).after 4 = .ok m ∧ m.step = .ok m' ∧
      m.stepIn [.writeBack, .memory, .execute, .decode, .fetch] = .ok n ∧
      m'.slots.fetch.map InFlight.rs2Value = some 0 ∧
      n.slots.fetch.map InFlight.rs2Value = some 5 ∧
      n.cpu = m'.cpu ∧ n.mem = m'.mem ∧ m'.after 1 = .ok p ∧ n.after 1 = .ok p := by
  obtain ⟨m, m', hm, hs, hp⟩ := exists_step_after (m := start lateOperand) (n := 4)
    (p := fun m =>
      (m.slots.execute.all fun e => e.access.all fun x => x.address.cellOf != m.cpu.pc.cellOf) &&
      (m.step.toOption.any fun m' =>
        m'.slots.fetch.map InFlight.rs2Value == some 0 && (m'.after 1).toOption.isSome) &&
      ((m.stepIn [.writeBack, .memory, .execute, .decode, .fetch]).toOption.any fun n =>
        n.slots.fetch.map InFlight.rs2Value == some 5)) (by decide)
  simp only [Bool.and_eq_true] at hp
  obtain ⟨⟨haway, husual⟩, hopposite⟩ := hp
  have hno : ¬m.StoresIntoFetch := by
    rintro ⟨-, e, x, he, hx, -, hc⟩
    simp [he, hx, hc] at haway
  obtain ⟨n, hn, hcpu, hmem, -, -, -, hlater⟩ := stages_commute hs hno
    (show List.Perm [.writeBack, .memory, .execute, .decode, .fetch] Stage.all by decide)
  simp only [hs, Except.toOption, Option.any_some, Bool.and_eq_true, beq_iff_eq] at husual
  simp only [hn, Except.toOption, Option.any_some, beq_iff_eq] at hopposite
  cases hp : m'.after 1 with
  | error b => simp [hp] at husual
  | ok p =>
    exact ⟨m, m', n, p, hm, hs, hn, husual.1, hopposite, hcpu, hmem, hp, (hlater 0).1 p hp⟩

end Machine

end FiveStage
