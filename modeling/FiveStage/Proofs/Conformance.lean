import FiveStage.Proofs.Faults
import FiveStage.Proofs.Numbers

/-
  Conformance — a step of sequential execution is a step of RV32I

  A state is looked at as a hart: its program counter, its registers and its bytes as
  numbers. A word that is an instruction of `Rv32i` does to this hart what `Rv32i`
  says, in the dialect of the machine; any other word is skipped.

  What is proved:
    1. `number_hart`, `eq_of_hart` — memory as bytes and memory as words; and that the
       numbers tell the state.
    2. `loadWidth?_eq`, `storeWidth?_eq`, `word_load`, `byte_merged` — loads and stores.
    3. `conforms_op` to `conforms_auipc` — one lemma for each opcode.
    4. `step_conforms` — so a step conforms, and follows the standard where the step
       is an ordinary one.
-/

namespace FiveStage

open Rv32i

/-! ## A state as a hart -/

/-- What a program sees of a state, in numbers. -/
def State.hart (s : State) : Hart :=
  { pc := s.cpu.pc.toNat
    reg := fun r => (s.cpu.regs.get (BitVec.ofNat 5 r)).toNat
    byte := fun a => (Word.byte (s.mem.cell (a / 4)) (a % 4)).toNat }

namespace Word

theorem toNat_byte (w : Word) (j : Nat) : (byte w j).toNat = w.toNat / 256 ^ j % 256 := by
  rw [byte, BitVec.extractLsb'_toNat, Nat.shiftRight_eq_div_pow, Nat.pow_mul]

theorem toNat_cellOf (a : Word) : a.cellOf = a.toNat / 4 := by
  rw [cellOf, BitVec.toNat_ushiftRight, Nat.shiftRight_eq_div_pow]

end Word

namespace State

variable (s : State)

theorem hart_reg (r : Word) :
    s.hart.reg (Fin.ofNat 32 r.toNat) = (s.cpu.regs.get (r.setWidth 5)).toNat := by
  have hr : BitVec.ofNat 5 (Fin.ofNat 32 r.toNat).val = r.setWidth 5 := by
    apply BitVec.eq_of_toNat_eq
    rw [BitVec.toNat_ofNat, BitVec.toNat_setWidth]
    exact Nat.mod_mod _ _
  simp only [hart, hr]

theorem rs1_hart : s.hart.rs1 s.word.toNat =
    (s.cpu.regs.get ((Fields.rs1Of s.word).setWidth 5)).toNat := by
  rw [← hart_reg, Fields.rs1Of, Word.field_eq _ (by decide)]
  rfl

theorem rs2_hart : s.hart.rs2 s.word.toNat =
    (s.cpu.regs.get ((Fields.rs2Of s.word).setWidth 5)).toNat := by
  rw [← hart_reg, Fields.rs2Of, Word.field_eq _ (by decide)]
  rfl

theorem byte_hart (k : Nat) {i : Nat} (h : i < 4) :
    s.hart.byte (4 * k + i) = (s.mem.cell k).toNat / 256 ^ i % 256 := by
  show (Word.byte (s.mem.cell ((4 * k + i) / 4)) ((4 * k + i) % 4)).toNat = _
  rw [show (4 * k + i) / 4 = k by omega, show (4 * k + i) % 4 = i by omega, Word.toNat_byte]

/-- Bytes of one cell spell a part of its word. -/
theorem number_hart (k : Nat) {i n : Nat} (h : i + n ≤ 4) :
    s.hart.number (4 * k + i) n = (s.mem.cell k).toNat / 256 ^ i % 256 ^ n := by
  induction n generalizing i with
  | zero => rw [Hart.number, Nat.pow_zero, Nat.mod_one]
  | succ n ih =>
    rw [Hart.number, Nat.add_assoc, ih (by omega), s.byte_hart k (by omega),
      Nat.pow_succ' (n := n), Nat.mod_mul, Nat.div_div_eq_div_mul, Nat.pow_succ]

theorem number_place (a : Word) {n : Nat} (h : n ≤ 4) :
    s.hart.number (Dialect.fiveStage.place a.toNat) n = (s.mem.cell a.cellOf).toNat % 256 ^ n := by
  have hp : Dialect.fiveStage.place a.toNat = 4 * a.cellOf + 0 := by
    rw [Word.toNat_cellOf, Nat.add_zero, Nat.mul_comm]
    rfl
  rw [hp, number_hart s _ (by omega), Nat.pow_zero, Nat.div_one]

theorem word_hart : s.hart.word .fiveStage = s.word.toNat := by
  rw [Hart.word, word, ← Nat.mod_eq_of_lt (s.mem.cell s.cpu.pc.cellOf).isLt]
  exact s.number_place s.cpu.pc (Nat.le_refl 4)

/-- Nothing of a state is lost in its hart but how large memory is and whether fetching
is held. -/
theorem eq_of_hart {s t : State} (h : s.hart = t.hart) (hc : s.mem.capacity = t.mem.capacity)
    (hs : s.cpu.stall = t.cpu.stall) : s = t := by
  have hpc : s.cpu.pc = t.cpu.pc := BitVec.eq_of_toNat_eq (congrArg Hart.pc h)
  have hregs : s.cpu.regs = t.cpu.regs := by
    apply Registers.ext_get
    intro r
    -- `hart_reg` speaks of a register by the word that a field is
    have hr := congrFun (congrArg Hart.reg h) (Fin.ofNat 32 (r.setWidth 32).toNat)
    have hw : (r.setWidth 32).setWidth 5 = r := by
      rw [BitVec.setWidth_setWidth_of_le r (by decide), BitVec.setWidth_eq]
    rw [hart_reg, hart_reg, hw] at hr
    exact BitVec.eq_of_toNat_eq hr
  have hmem : s.mem = t.mem := by
    apply Memory.ext_cell hc
    intro i
    apply BitVec.eq_of_toNat_eq
    have hn := congrArg (Hart.number · (4 * i + 0) 4) h
    simp only [number_hart, Nat.le_refl, Nat.zero_add, Nat.pow_zero, Nat.div_one] at hn
    have hsi : (s.mem.cell i).toNat < 256 ^ 4 := (s.mem.cell i).isLt
    have hti : (t.mem.cell i).toNat < 256 ^ 4 := (t.mem.cell i).isLt
    rwa [Nat.mod_eq_of_lt hsi, Nat.mod_eq_of_lt hti] at hn
  cases s with
  | mk c m =>
    cases t with
    | mk c' m' =>
      cases c
      cases c'
      simp only at hpc hregs hmem hs
      rw [hpc, hregs, hmem, hs]

end State

/-! ## Loads and stores -/

theorem loadWidth?_eq (funct3 : Word) :
    InFlight.loadWidth? funct3 =
      (load? funct3.toNat).map fun (n, sign) => (Word.lowMask (8 * n), sign) := by
  unfold InFlight.loadWidth?
  split
  case h_6 =>
    rw [load?]
    · rfl
    all_goals
      intro h3
      cases Word.eq_ofNat h3
      contradiction
  all_goals rfl

theorem storeWidth?_eq (funct3 : Word) :
    InFlight.storeWidth? funct3 = (store? funct3.toNat).map fun n => Word.lowMask (8 * n) := by
  unfold InFlight.storeWidth?
  split
  case h_4 =>
    rw [store?]
    · rfl
    all_goals
      intro h3
      cases Word.eq_ofNat h3
      contradiction
  all_goals rfl

/-- The numbers of bytes that are loaded and stored. -/
theorem width_of_load? {funct3 n : Nat} {sign : Bool} (h : load? funct3 = some (n, sign)) :
    n = 1 ∨ n = 2 ∨ n = 4 := by
  unfold load? at h
  split at h
  all_goals simp_all

theorem width_of_store? {funct3 n : Nat} (h : store? funct3 = some n) : n = 1 ∨ n = 2 ∨ n = 4 := by
  unfold store? at h
  split at h
  all_goals simp_all

theorem popcount_lowMask {n : Nat} (h : n = 1 ∨ n = 2 ∨ n = 4) :
    Word.popcount (Word.lowMask (8 * n)) = 8 * n := by
  rcases h with rfl | rfl | rfl <;> decide

/-- A load delivers the low end of a word, extended as it asks. -/
theorem word_of_holds {mem : Memory} {a : Word} {n : Nat} (sign : Bool) (ha : mem.Holds a)
    (hn : n = 1 ∨ n = 2 ∨ n = 4) :
    Access.word ⟨.load, a, 0, Word.lowMask (8 * n), sign⟩ mem =
      .ok (if sign then Word.signExtend (mem.cell a.cellOf &&& Word.lowMask (8 * n)) (8 * n)
        else mem.cell a.cellOf &&& Word.lowMask (8 * n)) := by
  have h8 : 1 ≤ 8 * n ∧ 8 * n ≤ 32 := by omega
  simp only [Access.word, Memory.load_of_holds ha, bind, Except.bind]
  cases sign with
  | true => rw [if_pos rfl, if_pos rfl, popcount_lowMask hn, Word.signExtendFrom_eq_ok _ h8]
  | false => rfl

/-- What is loaded is the number that the bytes of the word spell. -/
theorem word_load (s : State) {a : Word} {n : Nat} (sign : Bool) (ha : s.mem.Holds a)
    (hn : n = 1 ∨ n = 2 ∨ n = 4) :
    Access.word ⟨.load, a, 0, Word.lowMask (8 * n), sign⟩ s.mem =
      .ok (BitVec.ofInt 32 (s.hart.load (Dialect.fiveStage.place a.toNat) n sign)) := by
  have h8 : 1 ≤ 8 * n ∧ 8 * n ≤ 32 := by omega
  have hv : (s.mem.cell a.cellOf &&& Word.lowMask (8 * n)).toNat =
      s.hart.number (Dialect.fiveStage.place a.toNat) n := by
    rw [s.number_place a (by omega), BitVec.toNat_and, Word.toNat_lowMask h8.2,
      Nat.and_two_pow_sub_one_eq_mod, Nat.pow_mul]
  rw [word_of_holds sign ha hn, Hart.load, ← hv]
  cases sign with
  | true => rw [if_pos rfl, if_pos rfl, Word.ofInt_signed _ h8]
  | false => rw [if_neg (by decide), if_neg (by decide), Word.ofInt_toNat]

namespace Word

/-- A word with its lowest `n` bytes taken from another. -/
def merged (n : Nat) (old v : Word) : Word :=
  (old &&& ~~~lowMask (8 * n)) ||| (v &&& lowMask (8 * n))

theorem getLsbD_merged {n : Nat} (old v : Word) {i : Nat} (hi : i < 32) :
    (merged n old v).getLsbD i = if i < 8 * n then v.getLsbD i else old.getLsbD i := by
  by_cases h : i < 8 * n <;>
    simp only [merged, BitVec.getLsbD_or, BitVec.getLsbD_and, BitVec.getLsbD_not,
      getLsbD_lowMask hi, hi, h, decide_true, decide_false, Bool.not_true, Bool.not_false,
      Bool.and_true, Bool.and_false, Bool.or_false, Bool.false_or, if_true, if_false]

theorem byte_merged {n j : Nat} (old v : Word) (hj : j < 4) :
    byte (merged n old v) j = if j < n then byte v j else byte old j := by
  apply BitVec.eq_of_getLsbD_eq
  intro i hi
  rw [byte, BitVec.getLsbD_extractLsb', getLsbD_merged old v (by omega)]
  by_cases h : j < n
  · rw [if_pos h, if_pos (by omega), byte, BitVec.getLsbD_extractLsb']
  · rw [if_neg h, if_neg (by omega), byte, BitVec.getLsbD_extractLsb']

end Word

theorem word_store {mem : Memory} {a v : Word} {n : Nat} (ha : mem.Holds a) :
    Access.word ⟨.store, a, v &&& Word.lowMask (8 * n), ~~~Word.lowMask (8 * n), false⟩ mem =
      .ok (Word.merged n (mem.cell a.cellOf) v) := by
  simp only [Access.word, Memory.load_of_holds ha, bind, Except.bind]
  rfl

namespace State

/-- A stored word is the bytes put in its place. -/
theorem hart_store (s : State) {a : Word} {n : Nat} (ha : a.cellOf < s.mem.capacity) (hn : n ≤ 4)
    (v : Word) :
    ({ s with mem := s.mem.set a.cellOf (Word.merged n (s.mem.cell a.cellOf) v) ha } : State).hart =
      s.hart.put (Dialect.fiveStage.place a.toNat) n v.toNat := by
  have hp : Dialect.fiveStage.place a.toNat = 4 * a.cellOf := by
    rw [Word.toNat_cellOf, Nat.mul_comm]
    rfl
  rw [hp]
  unfold hart Hart.put
  congr 1
  funext b
  dsimp only
  rw [Memory.cell_set]
  -- a byte lies in the cell that is stored to or in another, and there it is one of the
  -- bytes that are stored or is kept
  by_cases hb : a.cellOf = b / 4
  · rw [if_pos hb, Word.byte_merged _ _ (Nat.mod_lt _ (by decide))]
    by_cases hin : b % 4 < n
    · rw [if_pos hin, if_pos (by omega), Word.toNat_byte, show b - 4 * a.cellOf = b % 4 by omega]
    · rw [if_neg hin, if_neg (by omega), hb]
  · rw [if_neg hb, if_neg (by omega)]

/-! ## What a step leaves -/

variable (pc : Word) (stall : Bool) (regs : Registers) (mem : Memory)

theorem hart_set {r : Word} (hr : r.toNat < 32) (z : Int) :
    hart ⟨⟨pc, stall, regs.set (r.setWidth 5) (BitVec.ofInt 32 z)⟩, mem⟩ =
      (hart ⟨⟨pc, stall, regs⟩, mem⟩).write r.toNat z := by
  have h0 : r.setWidth 5 = 0 ↔ r.toNat = 0 := by
    rw [← BitVec.toNat_inj, BitVec.toNat_setWidth, Nat.mod_eq_of_lt hr]
    rfl
  unfold hart Hart.write
  congr 1
  funext q
  dsimp only
  have hq : r.setWidth 5 = BitVec.ofNat 5 q ↔ q.val = r.toNat := by
    rw [← BitVec.toNat_inj, BitVec.toNat_setWidth, Nat.mod_eq_of_lt hr, BitVec.toNat_ofNat,
      Nat.mod_eq_of_lt q.isLt, eq_comm]
  by_cases hz : r.toNat = 0
  · rw [if_neg (by omega), h0.mpr hz, Registers.set_zero]
  · have hne : r.setWidth 5 ≠ 0 := fun h => hz (h0.mp h)
    by_cases hqr : q.val = r.toNat
    · rw [if_pos ⟨hqr, hz⟩, ← hq.mpr hqr, Registers.get_set_self _ hne, Word.toNat_ofInt]
    · rw [if_neg fun h => hqr h.1, Registers.get_set_of_ne _ fun h => hqr (hq.mp h)]

theorem hart_pc (z : Int) :
    hart ⟨⟨BitVec.ofInt 32 z, stall, regs⟩, mem⟩ = (hart ⟨⟨pc, stall, regs⟩, mem⟩).jump z := by
  unfold hart Hart.jump
  rw [Word.toNat_ofInt]

end State

/-! ## The stages after execution -/

namespace InFlight

theorem accessMemory_of_none {e : InFlight} (h : e.access = none) (mem : Memory) :
    e.accessMemory mem = .ok ({ e with stage := .memory }, mem) := by
  simp only [accessMemory, h]
  rfl

theorem accessMemory_of_load {e : InFlight} {x : Access} {mem : Memory} {w : Word}
    (h : e.access = some x) (hk : x.kind = .load) (hw : x.word mem = .ok w) :
    e.accessMemory mem = .ok (receiveLoaded { e with stage := .memory } w, mem) := by
  simp only [accessMemory, h, hw, hk]
  rfl

theorem accessMemory_of_store {e : InFlight} {x : Access} {mem : Memory} {w : Word}
    (h : e.access = some x) (hk : x.kind = .store) (hw : x.word mem = .ok w)
    (hin : x.address.cellOf < mem.capacity) :
    e.accessMemory mem = .ok ({ e with stage := .memory }, mem.set x.address.cellOf w hin) := by
  simp only [accessMemory, h, hw, hk, Memory.store_of_holds hin]
  rfl

/-- Write-back of a result that names a register. -/
theorem writeBack_of_some {a : InFlight} {w : RegWrite} (h : a.result = some w)
    (hw : w.dest.toNat < 32) (regs : Registers) :
    a.writeBack regs =
      .ok ({ a with stage := .writeBack }, regs.set (w.dest.setWidth 5) w.value) := by
  refine writeBack_eq_ok_iff.mpr ⟨rfl, .inr ⟨w, h, ?_⟩⟩
  exact Registers.write_eq_ok_iff.mpr ⟨hw, rfl⟩

end InFlight

namespace Sequential

variable {s : State} {d : InFlight} {h : Hart}

/-- A step goes through and leaves the hart that is given, in a memory as large as
before. -/
def StepsTo (s : State) (h : Hart) : Prop :=
  ∃ s', step s = .ok (some s') ∧ s'.hart = h ∧ s'.mem.capacity = s.mem.capacity ∧
    s'.cpu.stall = s.cpu.stall

theorem pc_following (s : State) : s.cpu.pc + 4 = BitVec.ofInt 32 (s.hart.pc + 4) :=
  (AluOp.ofInt_add s.cpu.pc 4).symm

theorem stepsTo_skip (hin : s.Inside) (h0 : s.word ≠ 0) (hd : s.decoded = none) :
    StepsTo s s.hart.advance := by
  refine ⟨skip s, ?_, ?_, rfl, rfl⟩
  · rw [step_of_inside hin, if_neg h0, hd]
  · rw [skip, pc_following, State.hart_pc s.cpu.pc]
    rfl

section Decoded

variable {o : Opcode} (hin : s.Inside) (h0 : s.word ≠ 0) (hd : s.decoded = some d)
  (hdec : d.IsDecoded s.word s.cpu.pc o)
include hin h0 hd

/-- A step ends as memory access and write-back leave it. -/
theorem stepsTo_of_stages {a r : InFlight} {mem : Memory} {regs : Registers}
    (ha : d.execute.1.accessMemory s.mem = .ok (a, mem))
    (hr : a.writeBack s.cpu.regs = .ok (r, regs))
    (hh : State.hart ⟨⟨d.execute.2.getD (s.cpu.pc + 4), s.cpu.stall, regs⟩, mem⟩ = h) :
    StepsTo s h := by
  have hc := complete_eq_ok_iff.mpr ⟨a, mem, regs, ha, hr, rfl⟩
  refine ⟨_, ?_, hh, InFlight.capacity_of_accessMemory ha, rfl⟩
  rw [step_of_inside hin, if_neg h0, hd]
  dsimp only
  rw [hc]
  rfl

include hdec

/-- An instruction that at most moves the program counter. -/
theorem stepsTo_of_moves {t : Option Word} {z : Int}
    (he : d.effectOf o.format o = ⟨none, none, t⟩)
    (ht : t.getD (s.cpu.pc + 4) = BitVec.ofInt 32 z) : StepsTo s (s.hart.jump z) := by
  have hx : d.execute.1.access = none := by rw [hdec.access_execute, he]
  have hw : d.execute.1.result = none := by rw [hdec.result_execute, he]
  have hm : d.execute.2 = t := by rw [hdec.redirect_execute, he]
  refine stepsTo_of_stages hin h0 hd (InFlight.accessMemory_of_none hx s.mem)
    (InFlight.writeBack_eq_ok_iff.mpr ⟨rfl, .inl ⟨hw, rfl⟩⟩) ?_
  rw [hm, ht, State.hart_pc s.cpu.pc]

/-- An instruction that writes a register, and perhaps moves the program counter. -/
theorem stepsTo_of_writes {t : Option Word} {r : Word} {z v : Int} (hr : r.toNat < 32)
    (he : d.effectOf o.format o = ⟨none, some ⟨r, BitVec.ofInt 32 v⟩, t⟩)
    (ht : t.getD (s.cpu.pc + 4) = BitVec.ofInt 32 z) :
    StepsTo s ((s.hart.jump z).write r.toNat v) := by
  have hx : d.execute.1.access = none := by rw [hdec.access_execute, he]
  have hw : d.execute.1.result = some ⟨r, BitVec.ofInt 32 v⟩ := by rw [hdec.result_execute, he]
  have hm : d.execute.2 = t := by rw [hdec.redirect_execute, he]
  refine stepsTo_of_stages hin h0 hd (InFlight.accessMemory_of_none hx s.mem)
    (InFlight.writeBack_of_some hw hr _) ?_
  rw [hm, ht, State.hart_set _ _ _ _ hr, State.hart_pc s.cpu.pc]

/-- A load writes its register once memory has been read. -/
theorem stepsTo_of_load {x : Access} {r : Word} {v : Int} (hr : r.toNat < 32) (hk : x.kind = .load)
    (hl : x.word s.mem = .ok (BitVec.ofInt 32 v))
    (he : d.effectOf o.format o = ⟨some x, some ⟨r, 0⟩, none⟩) :
    StepsTo s (s.hart.advance.write r.toNat v) := by
  have hx : d.execute.1.access = some x := by rw [hdec.access_execute, he]
  have hw : d.execute.1.result = some ⟨r, 0⟩ := by rw [hdec.result_execute, he]
  have hm : d.execute.2 = none := by rw [hdec.redirect_execute, he]
  have hb : (InFlight.receiveLoaded { d.execute.1 with stage := .memory }
      (BitVec.ofInt 32 v)).result = some ⟨r, BitVec.ofInt 32 v⟩ := by
    simp only [InFlight.receiveLoaded, hw, Option.map_some]
  refine stepsTo_of_stages hin h0 hd (InFlight.accessMemory_of_load hx hk hl)
    (InFlight.writeBack_of_some hb hr _) ?_
  rw [hm, Option.getD_none, pc_following, State.hart_set _ _ _ _ hr, State.hart_pc s.cpu.pc]
  rfl

theorem stepsTo_of_store {a v : Word} {n : Nat} (ha : s.mem.Holds a) (hn : n ≤ 4)
    (he : d.effectOf o.format o = ⟨some ⟨.store, a, v &&& Word.lowMask (8 * n),
      ~~~Word.lowMask (8 * n), false⟩, none, none⟩) :
    StepsTo s (s.hart.advance.put (Dialect.fiveStage.place a.toNat) n v.toNat) := by
  have hx := hdec.access_execute
  have hw := hdec.result_execute
  rw [he] at hx hw
  have hm : d.execute.2 = none := by rw [hdec.redirect_execute, he]
  refine stepsTo_of_stages hin h0 hd (InFlight.accessMemory_of_store hx rfl (word_store ha) ha)
    (InFlight.writeBack_eq_ok_iff.mpr ⟨rfl, .inl ⟨hw, rfl⟩⟩) ?_
  rw [hm, Option.getD_none, pc_following, State.hart_pc s.cpu.pc]
  exact congrArg (Hart.jump · _) (s.hart_store ha hn v)

end Decoded

end Sequential

/-! ## Instructions -/

/-- The number in the low seven bits of a word that has the opcode. -/
def Opcode.code : Opcode → Nat
  | lui => 0x37
  | auipc => 0x17
  | jal => 0x6f
  | jalr => 0x67
  | branch => 0x63
  | load => 0x03
  | store => 0x23
  | op => 0x33
  | opImm => 0x13

theorem Opcode.code_of_ofWord? {w : Word} {o : Opcode} (h : ofWord? w = some o) :
    opcode w.toNat = o.code := by
  have hf : (Word.bits w 0 6).toNat = opcode w.toNat := Word.field_eq w (by decide)
  unfold ofWord? at h
  split at h
  case h_10 => exact absurd h nofun
  all_goals
    rename_i hb
    obtain rfl := Option.some.inj h
    rw [← hf, hb]
    rfl

theorem Opcode.ofWord?_of_code {w : Word} {o : Opcode} (h : opcode w.toNat = o.code) :
    ofWord? w = some o := by
  have hf : (Word.bits w 0 6).toNat = o.code := (Word.field_eq w (by decide)).trans h
  rw [ofWord?, Word.eq_ofNat hf]
  cases o <;> rfl

theorem exec?_of_ofWord?_eq_none {w : Word} (hw : Opcode.ofWord? w = none) (d : Dialect)
    (h : Hart) : exec? d w.toNat h = none := by
  have hne (o : Opcode) : opcode w.toNat ≠ o.code := fun ho =>
    Option.some_ne_none o ((Opcode.ofWord?_of_code ho).symm.trans hw)
  unfold exec?
  split
  case h_10 => rfl
  case h_1 ho => exact absurd ho (hne .op)
  case h_2 ho => exact absurd ho (hne .opImm)
  case h_3 ho => exact absurd ho (hne .load)
  case h_4 ho => exact absurd ho (hne .store)
  case h_5 ho => exact absurd ho (hne .branch)
  case h_6 ho => exact absurd ho (hne .jal)
  case h_7 ho => exact absurd ho (hne .jalr)
  case h_8 ho => exact absurd ho (hne .lui)
  case h_9 ho => exact absurd ho (hne .auipc)

namespace Sequential

variable {s : State} {d : InFlight} {o : Opcode}

/-! The fields of what has been decoded, as numbers. -/

section Fields

variable (hd : s.decoded = some d) (hdec : d.IsDecoded s.word s.cpu.pc o)
include hdec

theorem rd_decoded (h : (Fields.ofWord o.format s.word).rd = some (Fields.rdOf s.word)) :
    d.rd.toNat = rd s.word.toNat := by
  rw [InFlight.rd, hdec.fields, h, Option.getD_some]
  exact Word.field_eq _ (by decide)

theorem funct3_decoded
    (h : (Fields.ofWord o.format s.word).funct3 = some (Fields.funct3Of s.word)) :
    d.funct3.toNat = funct3 s.word.toNat := by
  rw [InFlight.funct3, hdec.fields, h, Option.getD_some]
  exact Word.field_eq _ (by decide)

theorem imm_decoded {imm : Word} (h : (Fields.ofWord o.format s.word).imm = some imm) :
    d.imm = imm := by
  rw [InFlight.imm, hdec.fields, h, Option.getD_some]

include hd

theorem rs1_decoded (h : (Fields.ofWord o.format s.word).rs1 = some (Fields.rs1Of s.word)) :
    d.rs1Value.toNat = s.hart.rs1 s.word.toNat := by
  have hv : d.rs1Value = InFlight.sample s.cpu.regs d.fields.rs1 :=
    InFlight.value_of_decode? hd .rs1
  rw [hv, hdec.fields, h, s.rs1_hart]
  rfl

theorem rs2_decoded (h : (Fields.ofWord o.format s.word).rs2 = some (Fields.rs2Of s.word)) :
    d.rs2Value.toNat = s.hart.rs2 s.word.toNat := by
  have hv : d.rs2Value = InFlight.sample s.cpu.regs d.fields.rs2 :=
    InFlight.value_of_decode? hd .rs2
  rw [hv, hdec.fields, h, s.rs2_hart]
  rfl

end Fields

section Shapes

variable (hin : s.Inside) (h0 : s.word ≠ 0) (hd : s.decoded = some d)
include hin h0 hd

/-- An instruction with no effect is passed. -/
theorem stepsTo_of_nothing (hdec : d.IsDecoded s.word s.cpu.pc o)
    (he : d.effectOf o.format o = .nothing) : StepsTo s s.hart.advance :=
  stepsTo_of_moves hin h0 hd hdec he (pc_following s)

/-- An instruction that does no more than write the register it names. -/
theorem stepsTo_of_rd (hdec : d.IsDecoded s.word s.cpu.pc o) {v : Word} {z : Int}
    (hr : (Fields.ofWord o.format s.word).rd = some (Fields.rdOf s.word))
    (he : d.effectOf o.format o = .writes d.rd v) (hv : v = BitVec.ofInt 32 z) :
    StepsTo s (s.hart.advance.write (rd s.word.toNat) z) := by
  subst hv
  rw [← rd_decoded hdec hr]
  exact stepsTo_of_writes hin h0 hd hdec hdec.rd_lt he (pc_following s)

omit hin h0 hd in
theorem exists_decoded (ho : Opcode.ofWord? s.word = some o) :
    ∃ d, s.decoded = some d ∧ d.IsDecoded s.word s.cpu.pc o :=
  InFlight.exists_decoded s.cpu.pc s.cpu.regs ho

end Shapes

/-- A word moved by an extended immediate. -/
theorem add_signExtend {x imm : Word} {m n k : Nat} (hk : 1 ≤ k ∧ k ≤ 32) (hx : x.toNat = m)
    (hi : imm.toNat = n) : x + Word.signExtend imm k = BitVec.ofInt 32 (m + signed k n) := by
  rw [← Word.ofInt_signed imm hk, ← AluOp.ofInt_add, hx, hi]

/-- The address of a load or store. -/
theorem toNat_address (hd : s.decoded = some d) (hdec : d.IsDecoded s.word s.cpu.pc o) {n : Nat}
    (h : (Fields.ofWord o.format s.word).rs1 = some (Fields.rs1Of s.word))
    (hi : d.imm.toNat = n) :
    (d.rs1Value + d.offset).toNat = wrap (s.hart.rs1 s.word.toNat + signed 12 n) := by
  rw [InFlight.offset, add_signExtend (by decide) (rs1_decoded hd hdec h) hi, Word.toNat_ofInt]

/-! One lemma for each opcode. -/

section Opcodes

variable (hin : s.Inside) (h0 : s.word ≠ 0)
include hin h0

theorem conforms_op (ho : Opcode.ofWord? s.word = some .op) :
    StepsTo s ((exec? .fiveStage s.word.toNat s.hart).getD s.hart.advance) := by
  have hop : opcode s.word.toNat = 0x33 := Opcode.code_of_ofWord? ho
  obtain ⟨d, hd, hdec⟩ := exists_decoded ho
  have h7 : d.funct7.toNat = funct7 s.word.toNat := by
    rw [InFlight.funct7, hdec.fields]
    exact Word.field_eq _ (by decide)
  have hf := AluOp.ofFunct?_eq d.funct3 d.funct7 d.rs1Value d.rs2Value
  rw [funct3_decoded hdec rfl, h7, rs1_decoded hd hdec rfl, rs2_decoded hd hdec rfl] at hf
  have he : d.effectOf Opcode.op.format .op = d.registerEffect := rfl
  rw [InFlight.registerEffect] at he
  simp only [exec?, hop]
  cases hr : registerOp? (funct3 s.word.toNat) (funct7 s.word.toNat) (s.hart.rs1 s.word.toNat)
      (s.hart.rs2 s.word.toNat) with
  | none =>
    rw [hr, Option.map_none, Option.map_eq_none_iff] at hf
    rw [hf] at he
    exact stepsTo_of_nothing hin h0 hd hdec he
  | some z =>
    rw [hr, Option.map_some, Option.map_eq_some_iff] at hf
    obtain ⟨op, hsel, hz⟩ := hf
    rw [hsel] at he
    exact stepsTo_of_rd hin h0 hd hdec rfl he hz

theorem conforms_opImm (ho : Opcode.ofWord? s.word = some .opImm) :
    StepsTo s ((exec? .fiveStage s.word.toNat s.hart).getD s.hart.advance) := by
  have hop : opcode s.word.toNat = 0x13 := Opcode.code_of_ofWord? ho
  obtain ⟨d, hd, hdec⟩ := exists_decoded ho
  have hi : d.imm.toNat = immI s.word.toNat := by
    rw [imm_decoded hdec rfl, Fields.toNat_immI]
  have hf := AluOp.ofImmediate?_eq d.funct3 d.imm d.rs1Value
  rw [funct3_decoded hdec rfl, hi, rs1_decoded hd hdec rfl] at hf
  have he : d.effectOf Opcode.opImm.format .opImm = d.immediateEffect := rfl
  rw [InFlight.immediateEffect] at he
  simp only [exec?, hop]
  cases hr : immediateOp? (funct3 s.word.toNat) (immI s.word.toNat) (s.hart.rs1 s.word.toNat) with
  | none =>
    rw [hr, Option.map_none, Option.map_eq_none_iff] at hf
    rw [hf] at he
    exact stepsTo_of_nothing hin h0 hd hdec he
  | some z =>
    rw [hr, Option.map_some, Option.map_eq_some_iff] at hf
    obtain ⟨op, hsel, hz⟩ := hf
    rw [hsel] at he
    exact stepsTo_of_rd hin h0 hd hdec rfl he hz

theorem conforms_load (ho : Opcode.ofWord? s.word = some .load)
    (ha : ∀ a, s.hart.access? s.word.toNat = some a → a / 4 < s.mem.capacity) :
    StepsTo s ((exec? .fiveStage s.word.toNat s.hart).getD s.hart.advance) := by
  have hop : opcode s.word.toNat = 0x03 := Opcode.code_of_ofWord? ho
  obtain ⟨d, hd, hdec⟩ := exists_decoded ho
  have hw := loadWidth?_eq d.funct3
  rw [funct3_decoded hdec rfl] at hw
  have he : d.effectOf Opcode.load.format .load = d.loadEffect := rfl
  rw [InFlight.loadEffect, hw] at he
  simp only [exec?, hop]
  simp only [Hart.access?, hop] at ha
  cases hl : load? (funct3 s.word.toNat) with
  | none =>
    rw [hl] at he
    exact stepsTo_of_nothing hin h0 hd hdec he
  | some l =>
    obtain ⟨n, sign⟩ := l
    rw [hl] at he ha
    have hi : d.imm.toNat = immI s.word.toNat := by rw [imm_decoded hdec rfl, Fields.toNat_immI]
    have haddr := toNat_address hd hdec rfl hi
    have hholds : s.mem.Holds (d.rs1Value + d.offset) := by
      rw [Memory.Holds, Word.toNat_cellOf, haddr]
      exact ha _ rfl
    have hv := word_load s sign hholds (width_of_load? hl)
    rw [haddr] at hv
    rw [Option.map_some, Option.getD_some, ← rd_decoded hdec rfl]
    exact stepsTo_of_load hin h0 hd hdec hdec.rd_lt rfl hv he

theorem conforms_store (ho : Opcode.ofWord? s.word = some .store)
    (ha : ∀ a, s.hart.access? s.word.toNat = some a → a / 4 < s.mem.capacity) :
    StepsTo s ((exec? .fiveStage s.word.toNat s.hart).getD s.hart.advance) := by
  have hop : opcode s.word.toNat = 0x23 := Opcode.code_of_ofWord? ho
  obtain ⟨d, hd, hdec⟩ := exists_decoded ho
  have hw := storeWidth?_eq d.funct3
  rw [funct3_decoded hdec rfl] at hw
  have he : d.effectOf Opcode.store.format .store = d.storeEffect := rfl
  rw [InFlight.storeEffect, hw] at he
  simp only [exec?, hop]
  simp only [Hart.access?, hop] at ha
  cases hl : store? (funct3 s.word.toNat) with
  | none =>
    rw [hl] at he
    exact stepsTo_of_nothing hin h0 hd hdec he
  | some n =>
    rw [hl] at he ha
    have hi : d.imm.toNat = immS s.word.toNat := by rw [imm_decoded hdec rfl, Fields.toNat_immS]
    have haddr := toNat_address hd hdec rfl hi
    have hholds : s.mem.Holds (d.rs1Value + d.offset) := by
      rw [Memory.Holds, Word.toNat_cellOf, haddr]
      exact ha _ rfl
    have hn := width_of_store? hl
    rw [Option.map_some, Option.getD_some, ← haddr, ← rs2_decoded hd hdec rfl]
    exact stepsTo_of_store hin h0 hd hdec hholds (by omega) he

theorem conforms_branch (ho : Opcode.ofWord? s.word = some .branch) :
    StepsTo s ((exec? .fiveStage s.word.toNat s.hart).getD s.hart.advance) := by
  have hop : opcode s.word.toNat = 0x63 := Opcode.code_of_ofWord? ho
  obtain ⟨d, hd, hdec⟩ := exists_decoded ho
  have hf := AluOp.ofBranch?_eq d.funct3 d.rs1Value d.rs2Value
  rw [funct3_decoded hdec rfl, rs1_decoded hd hdec rfl, rs2_decoded hd hdec rfl] at hf
  have he : d.effectOf Opcode.branch.format .branch = d.branchEffect := rfl
  rw [InFlight.branchEffect] at he
  simp only [exec?, hop]
  cases hc : condition? (funct3 s.word.toNat) (s.hart.rs1 s.word.toNat)
      (s.hart.rs2 s.word.toNat) with
  | none =>
    rw [hc, Option.map_none, Option.map_eq_none_iff] at hf
    rw [hf] at he
    exact stepsTo_of_nothing hin h0 hd hdec he
  | some taken =>
    rw [hc, Option.map_some, Option.map_eq_some_iff] at hf
    obtain ⟨op, hsel, hz⟩ := hf
    rw [hsel] at he
    dsimp only at he
    rw [hz] at he
    cases taken with
    | false =>
      rw [if_pos (by decide)] at he
      exact stepsTo_of_nothing hin h0 hd hdec he
    | true =>
      have hi : d.imm.toNat = immB s.word.toNat := by rw [imm_decoded hdec rfl, Fields.toNat_immB]
      have hpc : d.pc.toNat = s.hart.pc := congrArg BitVec.toNat hdec.pc
      rw [if_neg (by decide)] at he
      exact stepsTo_of_moves hin h0 hd hdec he (add_signExtend (by decide) hpc hi)

/-- Both jumps write the address of the following instruction. -/
theorem stepsTo_of_jump (hd : s.decoded = some d) (hdec : d.IsDecoded s.word s.cpu.pc o)
    {t : Word} {z : Int} (hr : (Fields.ofWord o.format s.word).rd = some (Fields.rdOf s.word))
    (he : d.effectOf o.format o = ⟨none, some ⟨d.rd, d.following⟩, some t⟩)
    (ht : t = BitVec.ofInt 32 z) :
    StepsTo s ((s.hart.write (rd s.word.toNat) (s.hart.pc + 4)).jump z) := by
  rw [InFlight.following, hdec.pc, pc_following] at he
  rw [← rd_decoded hdec hr]
  exact stepsTo_of_writes hin h0 hd hdec hdec.rd_lt he ht

theorem conforms_jal (ho : Opcode.ofWord? s.word = some .jal) :
    StepsTo s ((exec? .fiveStage s.word.toNat s.hart).getD s.hart.advance) := by
  have hop : opcode s.word.toNat = 0x6f := Opcode.code_of_ofWord? ho
  obtain ⟨d, hd, hdec⟩ := exists_decoded ho
  have hi : d.imm.toNat = immJ s.word.toNat := by rw [imm_decoded hdec rfl, Fields.toNat_immJ]
  have hpc : d.pc.toNat = s.hart.pc := congrArg BitVec.toNat hdec.pc
  simp only [exec?, hop]
  exact stepsTo_of_jump hin h0 hd hdec rfl rfl (add_signExtend (by decide) hpc hi)

theorem conforms_jalr (ho : Opcode.ofWord? s.word = some .jalr) :
    StepsTo s ((exec? .fiveStage s.word.toNat s.hart).getD s.hart.advance) := by
  have hop : opcode s.word.toNat = 0x67 := Opcode.code_of_ofWord? ho
  obtain ⟨d, hd, hdec⟩ := exists_decoded ho
  have hi : d.imm.toNat = immI s.word.toNat := by rw [imm_decoded hdec rfl, Fields.toNat_immI]
  simp only [exec?, hop]
  exact stepsTo_of_jump hin h0 hd hdec rfl rfl
    (add_signExtend (by decide) (rs1_decoded hd hdec rfl) hi)

theorem conforms_lui (ho : Opcode.ofWord? s.word = some .lui) :
    StepsTo s ((exec? .fiveStage s.word.toNat s.hart).getD s.hart.advance) := by
  have hop : opcode s.word.toNat = 0x37 := Opcode.code_of_ofWord? ho
  obtain ⟨d, hd, hdec⟩ := exists_decoded ho
  have he : d.effectOf Opcode.lui.format .lui =
      .writes d.rd (Word.signExtend (d.imm <<< 12) 31) := rfl
  simp only [exec?, hop]
  refine stepsTo_of_rd hin h0 hd hdec rfl he ?_
  rw [imm_decoded hdec rfl, ← Fields.toNat_immU]
  exact (Word.ofInt_signed _ (by decide)).symm

theorem conforms_auipc (ho : Opcode.ofWord? s.word = some .auipc) :
    StepsTo s ((exec? .fiveStage s.word.toNat s.hart).getD s.hart.advance) := by
  have hop : opcode s.word.toNat = 0x17 := Opcode.code_of_ofWord? ho
  obtain ⟨d, hd, hdec⟩ := exists_decoded ho
  have he : d.effectOf Opcode.auipc.format .auipc =
      .writes d.rd (d.pc + Word.signExtend (d.imm <<< 12) 31) := rfl
  have hi : (d.imm <<< 12).toNat = immU s.word.toNat := by
    rw [imm_decoded hdec rfl, Fields.toNat_immU]
  have hpc : d.pc.toNat = s.hart.pc := congrArg BitVec.toNat hdec.pc
  simp only [exec?, hop]
  exact stepsTo_of_rd hin h0 hd hdec rfl he (add_signExtend (by decide) hpc hi)

end Opcodes

/-! ## Steps -/

theorem stepsTo_exec? (hin : s.Inside) (h0 : s.word ≠ 0)
    (ha : ∀ a, s.hart.access? s.word.toNat = some a → a / 4 < s.mem.capacity) :
    StepsTo s ((exec? .fiveStage s.word.toNat s.hart).getD s.hart.advance) := by
  cases ho : Opcode.ofWord? s.word with
  | none =>
    have hd : s.decoded = none := Option.map_eq_none_iff.mpr ho
    rw [exec?_of_ofWord?_eq_none ho]
    exact stepsTo_skip hin h0 hd
  | some o =>
    cases o with
    | lui => exact conforms_lui hin h0 ho
    | auipc => exact conforms_auipc hin h0 ho
    | jal => exact conforms_jal hin h0 ho
    | jalr => exact conforms_jalr hin h0 ho
    | branch => exact conforms_branch hin h0 ho
    | load => exact conforms_load hin h0 ho ha
    | store => exact conforms_store hin h0 ho ha
    | op => exact conforms_op hin h0 ho
    | opImm => exact conforms_opImm hin h0 ho

/-- **A step of sequential execution is a step of RV32I.** Where the program counter
lies in memory and the word there is not zero, and the address is in memory if the
word is a load or store, the step goes through and does to the program counter, the
registers and the bytes of memory what the word does in the dialect of the machine; a
word that is no instruction is passed. An ordinary step does what the standard says. -/
theorem step_conforms (s : State) (hin : s.Inside) (h0 : s.word ≠ 0)
    (ha : ∀ a, s.hart.access? s.word.toNat = some a → a / 4 < s.mem.capacity) :
    StepsTo s ((step? .fiveStage s.hart).getD s.hart.advance) ∧
      (Ordinary (s.hart.number s.hart.pc 4) s.hart →
        step? .fiveStage s.hart = step? .standard s.hart) := by
  refine ⟨?_, step?_fiveStage_of_ordinary⟩
  rw [step?, s.word_hart]
  exact stepsTo_exec? hin h0 ha

/-- A store of x1 at address 8. -/
def storing : State :=
  { cpu := ⟨0, false, Registers.zeroed.set 1 0x12345678⟩
    mem := (Memory.zeroed 4).set 0 0x00102423 (Nat.zero_lt_succ 3) }

/-- It is an ordinary step, so it does what the standard says. -/
theorem step_conforms_at_storing :
    ∃ s', step storing = .ok (some s') ∧ step? .standard storing.hart = some s'.hart := by
  have hw : storing.hart.number 0 4 = 0x00102423 := by decide
  have haccess : storing.hart.access? 0x00102423 = some 8 := by decide
  have hword : storing.word.toNat = 0x00102423 := by decide
  obtain ⟨⟨s', hs, hh, -⟩, hstandard⟩ := step_conforms storing
    (show storing.cpu.pc.cellOf < storing.mem.capacity by decide) (by decide) (by
    intro a ha
    rw [hword, haccess] at ha
    obtain rfl := Option.some.inj ha
    decide)
  have hordinary : Ordinary (storing.hart.number storing.hart.pc 4) storing.hart :=
    { fetch := rfl
      access := by
        intro a ha
        rw [show storing.hart.number storing.hart.pc 4 = _ from hw, haccess] at ha
        obtain rfl := Option.some.inj ha
        rfl
      branch := fun h => absurd h (by decide)
      jump := fun h => absurd h (by decide)
      upper := fun h => absurd h (by decide)
      code := fun h => absurd h (by decide)
      target := fun h => absurd h (by decide) }
  obtain ⟨h, hsome⟩ : ∃ h, step? .fiveStage storing.hart = some h :=
    Option.isSome_iff_exists.mp (by decide)
  rw [hsome, Option.getD_some] at hh
  exact ⟨s', hs, by rw [← hstandard hordinary, hsome, hh]⟩

end Sequential

end FiveStage
