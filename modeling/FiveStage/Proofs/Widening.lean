import FiveStage.Proofs.Faults

/-
  Widening — a program does in a larger memory what it does in a smaller one

  A memory is extended by zeros. Nothing that goes through in the smaller memory
  looks at them, so a cycle, and a step of sequential execution, is the same in the
  larger one. In a memory that holds every address nothing faults at all. So what a
  program would do if it did not fault can be spoken of: it is what it does in the
  widened memory, and the two part where it faults.

  What is proved:
    1. `accessMemory_of_extends` — an access has the same outcome.
    2. `Machine.step_of_extends`, `Machine.after_of_extends` — cycles.
    3. `Sequential.step_of_extends`, `Sequential.stateAt_of_extends` — steps.
    4. `neverFaults_widened`, `transfersInside_widened` — no step from a widened state
       faults, and none leads out of memory.
-/

namespace FiveStage

/-! ## Larger memories -/

namespace Memory

/-- Another memory with the same words, and perhaps zeros behind them. -/
structure Extends (mem wide : Memory) : Prop where
  capacity : mem.capacity ≤ wide.capacity
  cell : ∀ i, wide.cell i = mem.cell i

namespace Extends

variable {mem wide : Memory}

theorem holds (h : mem.Extends wide) {address : Word} (ha : mem.Holds address) :
    wide.Holds address :=
  Nat.lt_of_lt_of_le ha h.capacity

theorem set (h : mem.Extends wide) {i : Nat} (v : Word) (hi : i < mem.capacity)
    (hi' : i < wide.capacity) : (mem.set i v hi).Extends (wide.set i v hi') :=
  { capacity := h.capacity
    cell := fun j => by rw [cell_set, cell_set, h.cell] }

end Extends

/-- The memory with a word for every address. -/
def widened (mem : Memory) : Memory :=
  { capacity := max mem.capacity (2 ^ 30)
    stored := mem.stored
    stored_ne_zero := mem.stored_ne_zero
    stored_lt := fun i hi => mem.stored_lt i (Nat.le_trans (Nat.le_max_left _ _) hi) }

theorem extends_widened (mem : Memory) : mem.Extends mem.widened :=
  { capacity := Nat.le_max_left _ _
    cell := fun _ => rfl }

theorem cellOf_lt (address : Word) : address.cellOf < 2 ^ 30 := by
  rw [Word.cellOf, BitVec.toNat_ushiftRight, Nat.shiftRight_eq_div_pow]
  have := address.isLt
  omega

theorem holds_widened (mem : Memory) (address : Word) : mem.widened.Holds address :=
  Nat.lt_of_lt_of_le (cellOf_lt address) (Nat.le_max_right _ _)

end Memory

namespace InFlight

variable {mem wide : Memory}

theorem fetch_of_extends (h : mem.Extends wide) {pc : Word} {o : Option InFlight}
    (ho : fetch mem pc = .ok o) : fetch wide pc = .ok o := by
  have hin : mem.Holds pc := inside_of_fetch ho
  rw [fetch_of_inside hin] at ho
  rw [fetch_of_inside (h.holds hin), h.cell, ho]

/-- What is accessed is in memory. -/
theorem holds_of_accessMemory {e a : InFlight} {mem' : Memory}
    (h : e.accessMemory mem = .ok (a, mem')) {x : Access} (hx : e.access = some x) :
    mem.Holds x.address := by
  apply Decidable.byContradiction
  intro hn
  rw [accessMemory_of_not_holds hx hn] at h
  exact absurd h nofun

theorem word_of_extends (h : mem.Extends wide) {x : Access} (hx : mem.Holds x.address) :
    x.word wide = x.word mem := by
  rw [Access.word, Access.word, Memory.load_of_holds hx, Memory.load_of_holds (h.holds hx), h.cell]

theorem accessMemory_of_extends (h : mem.Extends wide) {e a : InFlight} {mem' : Memory}
    (ha : e.accessMemory mem = .ok (a, mem')) :
    ∃ wide', e.accessMemory wide = .ok (a, wide') ∧ mem'.Extends wide' := by
  cases hx : e.access with
  | none =>
    simp only [accessMemory, hx] at ha ⊢
    obtain ⟨rfl, rfl⟩ := Prod.mk.inj (Except.ok.inj ha)
    exact ⟨wide, rfl, h⟩
  | some x =>
    have hin := holds_of_accessMemory ha hx
    simp only [accessMemory, hx, word_of_extends h hin] at ha ⊢
    cases hw : x.word mem with
    | error f => simp [hw, bind, Except.bind] at ha
    | ok w =>
      simp only [hw, Memory.store_of_holds hin, Memory.store_of_holds (h.holds hin), bind,
        Except.bind] at ha ⊢
      cases hk : x.kind with
      | load =>
        rw [hk] at ha
        obtain ⟨rfl, rfl⟩ := Prod.mk.inj (Except.ok.inj ha)
        exact ⟨wide, rfl, h⟩
      | store =>
        rw [hk] at ha
        obtain ⟨rfl, rfl⟩ := Prod.mk.inj (Except.ok.inj ha)
        exact ⟨_, rfl, h.set w hin (h.holds hin)⟩

end InFlight

/-! ## Cycles in a larger memory -/

namespace Machine

variable {m m' : Machine} {wide : Memory}

theorem fetching_of_extends (h : m.mem.Extends wide) {f : Option InFlight}
    (hf : m.fetching = .ok f) : { m with mem := wide }.fetching = .ok f := by
  unfold fetching at hf ⊢
  cases hs : m.cpu.stall with
  | true =>
    rw [hs] at hf
    exact hf
  | false =>
    rw [hs] at hf
    exact InFlight.fetch_of_extends h hf

theorem accessing_of_extends (h : m.mem.Extends wide) {a : Option InFlight × Memory}
    (ha : m.accessing = .ok a) :
    ∃ wide', { m with mem := wide }.accessing = .ok (a.1, wide') ∧ a.2.Extends wide' := by
  rcases accessing_cases ha with ⟨he, rfl⟩ | ⟨e, i, mem, he, hacc, rfl⟩
  · exact ⟨wide, by simp only [accessing, he], h⟩
  · obtain ⟨wide', hacc', h'⟩ := InFlight.accessMemory_of_extends h hacc
    exact ⟨wide', by simp only [accessing, he, hacc']; rfl, h'⟩

/-- A cycle that goes through does the same in a larger memory. -/
theorem step_of_extends (h : m.mem.Extends wide) (hstep : m.step = .ok m') :
    ∃ wide', { m with mem := wide }.step = .ok { m' with mem := wide' } ∧
      m'.mem.Extends wide' := by
  obtain ⟨f, a, r, hf, ha, hr, rfl⟩ := step_eq_ok_iff.mp hstep
  obtain ⟨wide', ha', h'⟩ := accessing_of_extends h ha
  have hf' := fetching_of_extends h hf
  have hr' : { m with mem := wide }.retiring = .ok r := hr
  exact ⟨wide', step_eq_ok_iff.mpr ⟨f, (a.1, wide'), r, hf', ha', hr', rfl⟩, h'⟩

theorem after_of_extends (h : m.mem.Extends wide) {n : Nat} (hm : m.after n = .ok m') :
    ∃ wide', { m with mem := wide }.after n = .ok { m' with mem := wide' } ∧
      m'.mem.Extends wide' := by
  induction n generalizing m' with
  | zero =>
    obtain rfl := Except.ok.inj hm
    exact ⟨wide, rfl, h⟩
  | succ n ih =>
    obtain ⟨m'', hn, hs⟩ := exists_of_after_succ hm
    obtain ⟨wide'', hn', h''⟩ := ih hn
    obtain ⟨wide', hs', h'⟩ := step_of_extends h'' hs
    exact ⟨wide', (after_succ hn').trans hs', h'⟩

end Machine

/-! ## Steps in a larger memory -/

namespace Sequential

variable {s : State} {wide : Memory}

theorem complete_of_extends (h : s.mem.Extends wide) {i r : InFlight} {s' : State}
    (hc : complete s i = .ok (r, s')) :
    ∃ wide', complete { s with mem := wide } i = .ok (r, { s' with mem := wide' }) ∧
      s'.mem.Extends wide' := by
  obtain ⟨a, mem, regs, ha, hr, rfl⟩ := complete_eq_ok_iff.mp hc
  obtain ⟨wide', ha', h'⟩ := InFlight.accessMemory_of_extends h ha
  exact ⟨wide', complete_eq_ok_iff.mpr ⟨a, wide', regs, ha', hr, rfl⟩, h'⟩

theorem word_of_extends (h : s.mem.Extends wide) : { s with mem := wide }.word = s.word :=
  h.cell _

theorem decoded_of_extends (h : s.mem.Extends wide) : { s with mem := wide }.decoded = s.decoded := by
  rw [State.decoded, State.decoded, word_of_extends h]

/-- A step that goes through does the same in a larger memory. -/
theorem step_of_extends (h : s.mem.Extends wide) {o : Option State} (hs : step s = .ok o) :
    ∃ wide', step { s with mem := wide } = .ok (o.map fun t => { t with mem := wide' }) ∧
      ∀ t, o = some t → t.mem.Extends wide' := by
  have hin := inside_of_step hs
  have hin' : { s with mem := wide }.Inside := h.holds hin
  rw [step_of_inside hin] at hs
  rw [step_of_inside hin', word_of_extends h, decoded_of_extends h]
  by_cases h0 : s.word = 0
  · rw [if_pos h0] at hs ⊢
    obtain rfl := Except.ok.inj hs
    exact ⟨wide, rfl, nofun⟩
  rw [if_neg h0] at hs ⊢
  cases hd : s.decoded with
  | none =>
    rw [hd] at hs
    obtain rfl := Except.ok.inj hs
    refine ⟨wide, rfl, ?_⟩
    rintro t ⟨⟩
    exact h
  | some i =>
    rw [hd] at hs
    cases hc : complete s i with
    | error b => simp [hc, Except.map] at hs
    | ok done =>
      obtain ⟨wide', hc', h'⟩ := complete_of_extends h hc
      simp only [hc, Except.map, Except.ok.injEq] at hs
      subst hs
      refine ⟨wide', by simp only [hc', Except.map, Option.map_some], ?_⟩
      rintro t ⟨⟩
      exact h'

theorem next_of_extends (h : s.mem.Extends wide) {o : Option State} (hs : step s = .ok o) :
    ∃ wide', next { s with mem := wide } = { next s with mem := wide' } ∧
      (next s).mem.Extends wide' := by
  obtain ⟨wide', hs', h'⟩ := step_of_extends h hs
  cases o with
  | none => exact ⟨wide, by simp only [next, hs, hs', Option.map_none], by rwa [next, hs]⟩
  | some t =>
    refine ⟨wide', by simp only [next, hs, hs', Option.map_some], ?_⟩
    rw [next, hs]
    exact h' t rfl

/-- The two courses are the same up to the first step that faults. -/
theorem stateAt_of_extends (h : s.mem.Extends wide) {k : Nat}
    (hk : ∀ j, j < k → ∃ o, step (stateAt s j) = .ok o) :
    ∃ wide', stateAt { s with mem := wide } k = { stateAt s k with mem := wide' } ∧
      (stateAt s k).mem.Extends wide' := by
  induction k with
  | zero => exact ⟨wide, rfl, h⟩
  | succ k ih =>
    obtain ⟨wide'', hst, h''⟩ := ih fun j hj => hk j (Nat.lt_succ_of_lt hj)
    obtain ⟨o, ho⟩ := hk k (Nat.lt_succ_self k)
    obtain ⟨wide', hn, h'⟩ := next_of_extends h'' ho
    exact ⟨wide', by rw [stateAt, hst, hn]; rfl, h'⟩

/-! ## No faults -/

theorem neverFaults_of_holds (h : ∀ address, s.mem.Holds address) : NeverFaults s := by
  intro k
  have hall (address : Word) : (stateAt s k).mem.Holds address := by
    rw [Memory.Holds, capacity_stateAt]
    exact h address
  rcases step_or_astray (stateAt s k) with hok | ⟨address, hout, -⟩
  · exact hok
  · cases hout with
    | fetch hn => exact absurd (hall _) hn
    | access _ hn => exact absurd (hall _) hn

end Sequential

/-- The state with a word of memory for every address. -/
def State.widened (s : State) : State := { s with mem := s.mem.widened }

theorem neverFaults_widened (s : State) : Sequential.NeverFaults s.widened :=
  Sequential.neverFaults_of_holds s.mem.holds_widened

theorem transfersInside_widened (s : State) : Sequential.TransfersInside s.widened :=
  fun _ _ => s.mem.holds_widened _

end FiveStage
