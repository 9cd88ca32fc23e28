import FiveStage.Proofs.Conformance

/-
  Stores and loads — what a load reads after a store

  A store replaces the low end of the word that its address lies in, and a load reads
  the low end of a word, wherever in the word the two addresses point. The masks by
  which execution says so have opposite senses: a load's mask is what is kept of the
  word for the register, a store's what is kept of the word in memory. Neither appears
  in the laws here, which speak of the lowest bytes of a word.

  What is proved:
    1. `extended_merged`, `extended_eq` — what a load makes of a word whose low end has
       been replaced by one no narrower, and how it does it.
    2. `accesses_of_stores`, `accesses_of_loads` — execution and memory access of a store
       and of a load.
    3. `store_load_algebra` — the laws of a store and what follows it.
-/

namespace FiveStage

open Rv32i (load? store?)

/-! ## Words -/

namespace Word

/-- The lowest `n` bytes of a word, extended by their top bit or by zeros. -/
def extended (n : Nat) (sign : Bool) (w : Word) : Word :=
  if sign then (w.setWidth (8 * n)).signExtend 32 else (w.setWidth (8 * n)).setWidth 32

/-- A whole word is as it is. -/
theorem extended_four (sign : Bool) (w : Word) : extended 4 sign w = w := by
  unfold extended
  cases sign with
  | true => exact (BitVec.signExtend_eq _).trans (BitVec.setWidth_eq w)
  | false => exact (BitVec.setWidth_eq _).trans (BitVec.setWidth_eq w)

/-- The low bits of a merged word are those merged into it. -/
theorem setWidth_merged {m n : Nat} (h : m ≤ n) (hn : n ≤ 4) (old v : Word) :
    (merged n old v).setWidth (8 * m) = v.setWidth (8 * m) := by
  apply BitVec.eq_of_getLsbD_eq
  intro i hi
  rw [BitVec.getLsbD_setWidth, BitVec.getLsbD_setWidth, getLsbD_merged old v (by omega),
    if_pos (by omega)]

theorem extended_merged {m n : Nat} (h : m ≤ n) (hn : n ≤ 4) (sign : Bool) (old v : Word) :
    extended m sign (merged n old v) = extended m sign v := by
  unfold extended
  rw [setWidth_merged h hn]

theorem setWidth_and_lowMask {k : Nat} (hk : k ≤ 32) (w : Word) :
    (w &&& lowMask k).setWidth k = w.setWidth k := by
  apply BitVec.eq_of_getLsbD_eq
  intro i hi
  rw [BitVec.getLsbD_setWidth, BitVec.getLsbD_setWidth, BitVec.getLsbD_and,
    getLsbD_lowMask (by omega), decide_eq_true hi, Bool.and_true]

theorem setWidth_setWidth_eq_and (k : Nat) (w : Word) :
    (w.setWidth k).setWidth 32 = w &&& lowMask k := by
  apply BitVec.eq_of_getLsbD_eq
  intro i hi
  rw [BitVec.getLsbD_setWidth, BitVec.getLsbD_setWidth, BitVec.getLsbD_and, getLsbD_lowMask hi]
  by_cases h : i < k <;> simp [h, hi]

/-- The low end of a word, cut out by a mask and extended, as a load does it. -/
theorem extended_eq {n : Nat} (hn : 1 ≤ 8 * n ∧ 8 * n ≤ 32) (sign : Bool) (w : Word) :
    extended n sign w =
      if sign then Word.signExtend (w &&& lowMask (8 * n)) (8 * n) else w &&& lowMask (8 * n) := by
  unfold extended
  cases sign with
  | true => rw [if_pos rfl, if_pos rfl, signExtend_eq _ hn.1, setWidth_and_lowMask hn.2]
  | false => rw [if_neg (by decide), if_neg (by decide), setWidth_setWidth_eq_and]

end Word

/-! ## Memory with one word changed -/

namespace Memory

/-- In one cell the lowest `n` bytes are those of a word, and all else is as before. -/
structure Replaces (mem : Memory) (k n : Nat) (v : Word) (mem' : Memory) : Prop where
  capacity : mem'.capacity = mem.capacity
  low : ∀ i, i < 8 * n → (mem'.cell k).getLsbD i = v.getLsbD i
  high : ∀ i, 8 * n ≤ i → (mem'.cell k).getLsbD i = (mem.cell k).getLsbD i
  other : ∀ j, j ≠ k → mem'.cell j = mem.cell j

variable {mem : Memory}

theorem cell_set_self {k : Nat} (v : Word) (h : k < mem.capacity) : (mem.set k v h).cell k = v := by
  rw [cell_set, if_pos rfl]

theorem cell_set_of_ne {k j : Nat} (v : Word) (h : k < mem.capacity) (hj : j ≠ k) :
    (mem.set k v h).cell j = mem.cell j := by
  rw [cell_set, if_neg hj.symm]

theorem replaces_set {k n : Nat} (v : Word) (h : k < mem.capacity) (hn : n ≤ 4) :
    mem.Replaces k n v (mem.set k (Word.merged n (mem.cell k) v) h) := by
  constructor
  · rfl
  · intro i hi
    rw [cell_set_self, Word.getLsbD_merged _ v (by omega), if_pos hi]
  · intro i hi
    rw [cell_set_self]
    by_cases h32 : i < 32
    · rw [Word.getLsbD_merged _ v h32, if_neg (by omega)]
    · rw [BitVec.getLsbD_of_ge _ _ (by omega), BitVec.getLsbD_of_ge _ _ (by omega)]
  · intro j hj
    exact cell_set_of_ne _ h hj

/-- Changes to two cells can be made in either order. -/
theorem set_comm {k j : Nat} (hkj : k ≠ j) {v w : Word} {hk : k < mem.capacity}
    {hj : j < mem.capacity} {hj' : j < (mem.set k v hk).capacity}
    {hk' : k < (mem.set j w hj).capacity} :
    (mem.set k v hk).set j w hj' = (mem.set j w hj).set k v hk' := by
  apply ext_cell (by simp only [capacity_set])
  intro i
  simp only [cell_set]
  by_cases hi : k = i
  · rw [if_neg fun h => hkj (hi.trans h.symm), if_pos hi, if_pos hi]
  · rw [if_neg hi, if_neg hi]

end Memory

/-! ## Instructions -/

namespace InFlight

/-- A store of the lowest `n` bytes of its second operand. -/
structure Stores (i : InFlight) (n : Nat) : Prop where
  opcode : i.opcode = some .store
  format : i.format = some .s
  width : store? i.funct3.toNat = some n

/-- A load of `n` bytes. -/
structure Loads (i : InFlight) (n : Nat) (sign : Bool) : Prop where
  opcode : i.opcode = some .load
  format : i.format = some .i
  width : load? i.funct3.toNat = some (n, sign)

/-- The address that a load or store names. -/
def named (i : InFlight) : Word := i.rs1Value + i.offset

/-- The instruction executed, and the access carried out that this prepares. -/
def accesses (i : InFlight) (mem : Memory) : Except Fault (InFlight × Memory) :=
  i.execute.1.accessMemory mem

variable {i : InFlight} {n : Nat} {sign : Bool} {mem : Memory}

theorem Stores.access_execute (h : i.Stores n) :
    i.execute.1.access = some ⟨.store, i.named, i.rs2Value &&& Word.lowMask (8 * n),
      ~~~Word.lowMask (8 * n), false⟩ := by
  show i.effect.access.or i.access = _
  rw [effect, h.opcode, h.format]
  show i.storeEffect.access.or i.access = _
  rw [storeEffect, storeWidth?_eq, h.width]
  rfl

theorem Loads.access_execute (h : i.Loads n sign) :
    i.execute.1.access = some ⟨.load, i.named, 0, Word.lowMask (8 * n), sign⟩ := by
  show i.effect.access.or i.access = _
  rw [effect, h.opcode, h.format]
  show i.loadEffect.access.or i.access = _
  rw [loadEffect, loadWidth?_eq, h.width]
  rfl

theorem Loads.result_execute (h : i.Loads n sign) : i.execute.1.result = some ⟨i.rd, 0⟩ := by
  show i.effect.result.or i.result = _
  rw [effect, h.opcode, h.format]
  show i.loadEffect.result.or i.result = _
  rw [loadEffect, loadWidth?_eq, h.width]
  rfl

theorem Loads.result_receiveLoaded (h : i.Loads n sign) (w : Word) :
    (receiveLoaded { i.execute.1 with stage := .memory } w).result = some ⟨i.rd, w⟩ := by
  simp only [receiveLoaded, h.result_execute, Option.map_some]

/-- Memory after a store of `n` bytes, which replaces the low end of a word. -/
def stored (i : InFlight) (n : Nat) (mem : Memory) (ha : mem.Holds i.named) : Memory :=
  mem.set i.named.cellOf (Word.merged n (mem.cell i.named.cellOf) i.rs2Value) ha

theorem accesses_of_stores (h : i.Stores n) (ha : mem.Holds i.named) :
    i.accesses mem = .ok ({ i.execute.1 with stage := .memory }, i.stored n mem ha) :=
  accessMemory_of_store h.access_execute rfl (word_store ha) ha

/-- A load delivers the low end of a word, and memory stays as it is. -/
theorem accesses_of_loads (h : i.Loads n sign) (ha : mem.Holds i.named) :
    i.accesses mem = .ok (receiveLoaded { i.execute.1 with stage := .memory }
      (Word.extended n sign (mem.cell i.named.cellOf)), mem) := by
  have hn := width_of_load? h.width
  rw [Word.extended_eq (by omega)]
  exact accessMemory_of_load h.access_execute rfl (word_of_holds sign ha hn)

theorem mem_of_loads (h : i.Loads n sign) {a : InFlight} {mem' : Memory}
    (ha : i.accesses mem = .ok (a, mem')) : mem' = mem := by
  rcases accessMemory_cases ha with ⟨-, -, rfl⟩ | ⟨_, _, -, -, -, rfl⟩ | ⟨x, w, hx, hk, -⟩
  · rfl
  · rfl
  · obtain rfl := Option.some.inj (h.access_execute.symm.trans hx)
    exact absurd hk nofun

/-! ## A store and what follows it -/

variable {st : InFlight} (ha : mem.Holds st.named)

theorem holds_stored {a : Word} (h : mem.Holds a) : (st.stored n mem ha).Holds a := h

theorem cell_stored_self : (st.stored n mem ha).cell st.named.cellOf =
    Word.merged n (mem.cell st.named.cellOf) st.rs2Value :=
  Memory.cell_set_self _ ha

theorem cell_stored_of_ne {j : Nat} (h : j ≠ st.named.cellOf) :
    (st.stored n mem ha).cell j = mem.cell j :=
  Memory.cell_set_of_ne _ ha h

/-- What is loaded from the word that has been stored to. -/
theorem extended_stored {m : Nat} (hn : n ≤ 4) :
    (m = 4 → Word.extended m sign ((st.stored n mem ha).cell st.named.cellOf) =
        (st.stored n mem ha).cell st.named.cellOf) ∧
      (m ≤ n → Word.extended m sign ((st.stored n mem ha).cell st.named.cellOf) =
        Word.extended m sign st.rs2Value) := by
  constructor
  · rintro rfl
    exact Word.extended_four sign _
  · intro h
    rw [cell_stored_self, Word.extended_merged h hn]

/-- Stores to two words. -/
theorem stored_comm {st' : InFlight} {k : Nat} (hb : mem.Holds st'.named)
    (hne : st'.named.cellOf ≠ st.named.cellOf) :
    st'.stored k (st.stored n mem ha) (holds_stored ha hb) =
      st.stored n (st'.stored k mem hb) (holds_stored hb ha) := by
  have hst' := cell_stored_of_ne (n := n) ha hne
  have hst := cell_stored_of_ne (n := k) hb hne.symm
  unfold stored at hst hst' ⊢
  rw [hst', hst]
  exact Memory.set_comm hne.symm

/-- **The algebra of stores and loads.** A store of `n` bytes that is executed and then
carried out goes through where its address is in memory, and replaces exactly the low end
of the word there. What a load of `m` bytes then delivers for its register is the low end
of the word at its own address, extended as its kind asks, which is the stored value's if
the two are in one word and the load is no wider; and from any other word it delivers
what it would have without the store. A store to another word may come before or after.
Loads leave every memory as it is. -/
theorem store_load_algebra (hs : st.Stores n) (ha : mem.Holds st.named) :
    ∃ e mem', st.accesses mem = .ok (e, mem') ∧
      mem.Replaces st.named.cellOf n st.rs2Value mem' ∧
      (∀ (ld : InFlight) (m : Nat) (sign : Bool), ld.Loads m sign → mem.Holds ld.named →
        ∃ r w, ld.accesses mem' = .ok (r, mem') ∧ r.result = some ⟨ld.rd, w⟩ ∧
          (ld.named.cellOf = st.named.cellOf →
            w = Word.extended m sign (mem'.cell st.named.cellOf) ∧
              (m = 4 → w = mem'.cell st.named.cellOf) ∧
              (m ≤ n → w = Word.extended m sign st.rs2Value)) ∧
          (ld.named.cellOf ≠ st.named.cellOf → ld.accesses mem = .ok (r, mem))) ∧
      (∀ (st' : InFlight) (k : Nat), st'.Stores k → mem.Holds st'.named →
        st'.named.cellOf ≠ st.named.cellOf →
        ∃ e' mem₁ both, st'.accesses mem = .ok (e', mem₁) ∧ st'.accesses mem' = .ok (e', both) ∧
          st.accesses mem₁ = .ok (e, both)) ∧
      ∀ (ld : InFlight) (m : Nat) (sign : Bool) (mem₀ mem₁ : Memory) (r : InFlight),
        ld.Loads m sign → ld.accesses mem₀ = .ok (r, mem₁) → mem₁ = mem₀ := by
  have hn : n ≤ 4 := by
    have := width_of_store? hs.width
    omega
  refine ⟨_, st.stored n mem ha, accesses_of_stores hs ha, Memory.replaces_set _ ha hn,
    ?loads, ?stores, fun ld m sign mem₀ mem₁ r hl hr => mem_of_loads hl hr⟩
  case loads =>
    intro ld m sign hl hb
    refine ⟨_, _, accesses_of_loads hl (holds_stored ha hb), hl.result_receiveLoaded _,
      ?same, ?other⟩
    case same =>
      intro hc
      rw [hc]
      exact ⟨rfl, extended_stored ha hn⟩
    case other =>
      intro hne
      rw [cell_stored_of_ne ha hne]
      exact accesses_of_loads hl hb
  case stores =>
    intro st' k hs' hb hne
    refine ⟨_, st'.stored k mem hb, _, accesses_of_stores hs' hb,
      accesses_of_stores hs' (holds_stored ha hb), ?_⟩
    rw [stored_comm ha hb hne]
    exact accesses_of_stores hs (holds_stored hb ha)

/-- A store of the byte 0xf0 at address 6. -/
def storeByte : InFlight :=
  { fetched 0x00100323 0 with
    opcode := some .store
    format := some .s
    fields := { Fields.empty with funct3 := some 0, imm := some 6 }
    rs2Value := 0x123456f0 }

/-- A load of the byte at address 5 for x2, extended by its sign. -/
def loadByte : InFlight :=
  { fetched 0x00500103 0 with
    opcode := some .load
    format := some .i
    fields := { Fields.empty with rd := some 2, funct3 := some 0, imm := some 5 } }

/-- The addresses lie in one word, whose lowest byte is both stored and loaded. -/
theorem loadByte_after_storeByte :
    ∃ e mem', storeByte.accesses (Memory.zeroed 2) = .ok (e, mem') ∧
      (mem'.cell 1).getLsbD 7 = true ∧ mem'.cell 0 = 0 ∧
      ∃ r, loadByte.accesses mem' = .ok (r, mem') ∧ r.result = some ⟨2, 0xfffffff0⟩ := by
  have hs : storeByte.Stores 1 := ⟨rfl, rfl, rfl⟩
  have hl : loadByte.Loads 1 true := ⟨rfl, rfl, rfl⟩
  obtain ⟨e, mem', he, hr, hload, -⟩ :=
    store_load_algebra hs (show (Memory.zeroed 2).Holds storeByte.named by decide)
  obtain ⟨r, w, hacc, hres, hsame, -⟩ := hload loadByte 1 true hl (by decide)
  have hw : w = 0xfffffff0 := ((hsame (by decide)).2.2 (Nat.le_refl 1)).trans (by decide)
  refine ⟨e, mem', he, ?_, ?_, r, hacc, by rw [hres, hw]; rfl⟩
  · exact (hr.low 7 (by decide)).trans (by decide)
  · exact (hr.other 0 (by decide)).trans (Memory.cell_zeroed 2 0)

end InFlight

end FiveStage
