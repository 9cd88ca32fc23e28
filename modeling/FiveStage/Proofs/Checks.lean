import FiveStage.Proofs.Ranges

/-
  Checks — decoding and execution pass all of their own

  A bit range can run past the word, a number can name no register, a width can have no
  sign bit, and a shift can go by more places than a word has. Decoding and execution
  allow for none of this: they cut, read, extend and shift as if it could not happen.
  Here both are done again with each check made in its place, and come to the same. So
  no check refuses anything, whatever the word and the registers hold.

  Shifts by a number of places that stands in the definition have no check here; every
  such number is below 32.

  What is proved:
    1. `checkedDecode_eq` — each range that decoding cuts out lies in the word, and each
       register it reads exists.
    2. `checkedEval_eq` — the arithmetic unit shifts by 0 to 31 places.
    3. `checkedExecute_eq` — execution does no other shifts, and extends from 12, 20 and
       31 bits only.
-/

namespace FiveStage

/-! ## Decoding -/

namespace Fields

/-- The fields of a word, range by range, with the check of each. -/
def checked (f : Format) (w : Word) : Except Fault Fields := do
  let rd ← Word.bitRange w 7 11
  let funct3 ← Word.bitRange w 12 14
  let rs1 ← Word.bitRange w 15 19
  let rs2 ← Word.bitRange w 20 24
  let funct7 ← Word.bitRange w 25 31
  match f with
  | .r =>
    return { rs1 := some rs1, rs2 := some rs2, rd := some rd, funct3 := some funct3,
             funct7 := some funct7, imm := none }
  | .i =>
    let imm ← Word.bitRange w 20 31
    return { rs1 := some rs1, rs2 := none, rd := some rd, funct3 := some funct3, funct7 := none,
             imm := some imm }
  | .s =>
    return { rs1 := some rs1, rs2 := some rs2, rd := none, funct3 := some funct3, funct7 := none,
             imm := some (funct7 <<< 5 ||| rd) }
  | .b =>
    let sign ← Word.bitRange w 31 31
    let top ← Word.bitRange w 7 7
    let middle ← Word.bitRange w 25 30
    let low ← Word.bitRange w 8 11
    return { rs1 := some rs1, rs2 := some rs2, rd := none, funct3 := some funct3, funct7 := none,
             imm := some ((sign <<< 11 ||| top <<< 10 ||| middle <<< 4 ||| low) <<< 1) }
  | .u =>
    let imm ← Word.bitRange w 12 31
    return { rs1 := none, rs2 := none, rd := some rd, funct3 := none, funct7 := none,
             imm := some imm }
  | .j =>
    let sign ← Word.bitRange w 31 31
    let top ← Word.bitRange w 12 19
    let middle ← Word.bitRange w 20 20
    let low ← Word.bitRange w 21 30
    return { rs1 := none, rs2 := none, rd := some rd, funct3 := none, funct7 := none,
             imm := some ((sign <<< 19 ||| top <<< 11 ||| middle <<< 10 ||| low) <<< 1) }

theorem checked_eq (f : Format) (w : Word) : checked f w = .ok (ofWord f w) := by
  have hr {lo hi : Nat} (h : lo ≤ hi ∧ hi < 32) := Word.bitRange_eq_ok w h
  unfold checked
  rw [hr (by decide), hr (by decide), hr (by decide), hr (by decide), hr (by decide)]
  cases f with
  | r => rfl
  | i | u =>
    dsimp only [bind, Except.bind]
    rw [hr (by decide)]
    rfl
  | s =>
    dsimp only [bind, Except.bind]
    rw [immS_eq]
    rfl
  | b =>
    dsimp only [bind, Except.bind]
    rw [hr (by decide), hr (by decide), hr (by decide), hr (by decide)]
    dsimp only
    rw [immB_eq]
    rfl
  | j =>
    dsimp only [bind, Except.bind]
    rw [hr (by decide), hr (by decide), hr (by decide), hr (by decide)]
    dsimp only
    rw [immJ_eq]
    rfl

end Fields

namespace InFlight

/-- The value of a source field, if the register it names can be read. -/
def checkedSample (regs : Registers) : Option Word → Except Fault Word
  | some r => regs.read r
  | none => .ok 0

/-- Decoding with every check made: of each bit range, that of the opcode first, and of
each register number. -/
def checkedDecode (i : InFlight) (regs : Registers) : Except Fault (Option InFlight) := do
  let _ ← Word.bitRange i.raw 0 6
  match Opcode.ofWord? i.raw with
  | none => return none
  | some opcode =>
    let fields ← Fields.checked opcode.format i.raw
    let rs1Value ← checkedSample regs fields.rs1
    let rs2Value ← checkedSample regs fields.rs2
    return some
      { raw := i.raw, pc := i.pc, stage := .decode, opcode := some opcode,
        format := some opcode.format, fields, rs1Value, rs2Value, access := none, result := none }

theorem checkedSample_eq (regs : Registers) {r : Option Word}
    (h : ∀ x, r = some x → x.toNat < 32) :
    checkedSample regs r = .ok (sample regs r) := by
  cases r with
  | none => rfl
  | some x =>
    rw [checkedSample, Registers.read, Registers.nameOf_of_lt (h x rfl)]
    rfl

theorem checkedDecode_eq (i : InFlight) (regs : Registers) :
    i.checkedDecode regs = .ok (i.decode? regs) := by
  unfold checkedDecode decode?
  rw [Word.bitRange_eq_ok i.raw (by decide)]
  dsimp only [bind, Except.bind]
  cases Opcode.ofWord? i.raw with
  | none => rfl
  | some o =>
    dsimp only
    rw [Fields.checked_eq]
    dsimp only [bind, Except.bind]
    rw [checkedSample_eq regs fun x => Fields.rs1_lt]
    dsimp only
    rw [checkedSample_eq regs fun x => Fields.rs2_lt]
    rfl

end InFlight

/-! ## The arithmetic unit -/

namespace AluOp

/-- The operation, with the amount of its shift checked. -/
def checkedEval (op : AluOp) (a b : Word) : Except Fault Word :=
  match op with
  | sll => Word.shiftBy BitVec.shiftLeft .shiftLeft a (amount b)
  | srl => Word.shiftBy BitVec.ushiftRight .shiftRight a (amount b)
  | sra => Word.shiftBy BitVec.sshiftRight .shiftRight a (amount b)
  | op => .ok (op.eval a b)

theorem amount_lt (w : Word) : amount w < 32 := Nat.mod_lt _ (by decide)

theorem checkedEval_eq (op : AluOp) (a b : Word) : op.checkedEval a b = .ok (op.eval a b) := by
  cases op with
  | sll | srl | sra => exact if_pos (amount_lt b)
  | add | sub | and | or | xor | slt | sltu | beq | bne | blt | bge | bltu | bgeu => rfl

end AluOp

/-! ## Execution -/

namespace InFlight

variable (i : InFlight)

def checkedOffset : Except Fault Word := i.imm.signExtendFrom 12

def checkedRegisterEffect : Except Fault Effect :=
  match AluOp.ofFunct? i.funct3 i.funct7 with
  | some op => do
    let value ← op.checkedEval i.rs1Value i.rs2Value
    return .writes i.rd value
  | none => .ok .nothing

def checkedImmediateEffect : Except Fault Effect :=
  match AluOp.ofImmediate? i.funct3 i.imm with
  | some op => do
    let offset ← i.checkedOffset
    let value ← op.checkedEval i.rs1Value offset
    return .writes i.rd value
  | none => .ok .nothing

def checkedLoadEffect : Except Fault Effect :=
  match loadWidth? i.funct3 with
  | some (mask, signed) => do
    let offset ← i.checkedOffset
    return { access := some
               { kind := .load, address := i.rs1Value + offset, data := 0, mask, signed }
             result := some ⟨i.rd, 0⟩
             redirect := none }
  | none => .ok .nothing

def checkedStoreEffect : Except Fault Effect :=
  match storeWidth? i.funct3 with
  | some kept => do
    let offset ← i.checkedOffset
    return { access := some
               { kind := .store, address := i.rs1Value + offset, data := i.rs2Value &&& kept,
                 mask := ~~~kept, signed := false }
             result := none
             redirect := none }
  | none => .ok .nothing

def checkedRegisterJumpEffect : Except Fault Effect := do
  let offset ← i.checkedOffset
  return { access := none
           result := some ⟨i.rd, i.following⟩
           redirect := some (i.rs1Value + offset) }

/-- The offset of a branch is extended if the branch is taken. -/
def checkedBranchEffect : Except Fault Effect :=
  match AluOp.ofBranch? i.funct3 with
  | some op => do
    let taken ← op.checkedEval i.rs1Value i.rs2Value
    if taken = 0 then return .nothing
    let offset ← i.checkedOffset
    return { Effect.nothing with redirect := some (i.pc + offset) }
  | none => .ok .nothing

def checkedJumpEffect : Except Fault Effect := do
  let offset ← i.imm.signExtendFrom 20
  return { access := none
           result := some ⟨i.rd, i.following⟩
           redirect := some (i.pc + offset) }

def checkedUpperEffect (opcode : Opcode) : Except Fault Effect := do
  let upper ← Word.signExtendFrom (i.imm <<< 12) 31
  match opcode with
  | .auipc => return .writes i.rd (i.pc + upper)
  | _ => return .writes i.rd upper

def checkedEffectOf (format : Format) (opcode : Opcode) : Except Fault Effect :=
  match format, opcode with
  | .r, _ => i.checkedRegisterEffect
  | .i, .opImm => i.checkedImmediateEffect
  | .i, .load => i.checkedLoadEffect
  | .i, _ => i.checkedRegisterJumpEffect
  | .s, _ => i.checkedStoreEffect
  | .b, _ => i.checkedBranchEffect
  | .j, _ => i.checkedJumpEffect
  | .u, opcode => i.checkedUpperEffect opcode

def checkedEffect : Except Fault Effect :=
  match i.opcode, i.format with
  | some opcode, some format => i.checkedEffectOf format opcode
  | _, _ => .ok .nothing

/-- Execution with every check made: of each width that is extended from, and of each
amount that the arithmetic unit shifts by. -/
def checkedExecute : Except Fault (InFlight × Option Word) := do
  let e ← i.checkedEffect
  return ({ i with
              stage := .execute
              access := e.access.or i.access
              result := e.result.or i.result },
          e.redirect)

theorem checkedOffset_eq : i.checkedOffset = .ok i.offset :=
  Word.signExtendFrom_eq_ok i.imm (by decide)

theorem checkedRegisterEffect_eq : i.checkedRegisterEffect = .ok i.registerEffect := by
  unfold checkedRegisterEffect registerEffect
  cases AluOp.ofFunct? i.funct3 i.funct7 with
  | none => rfl
  | some op =>
    dsimp only
    rw [op.checkedEval_eq]
    rfl

theorem checkedImmediateEffect_eq : i.checkedImmediateEffect = .ok i.immediateEffect := by
  unfold checkedImmediateEffect immediateEffect
  cases AluOp.ofImmediate? i.funct3 i.imm with
  | none => rfl
  | some op =>
    dsimp only [bind, Except.bind]
    rw [i.checkedOffset_eq]
    dsimp only
    rw [op.checkedEval_eq]
    rfl

theorem checkedLoadEffect_eq : i.checkedLoadEffect = .ok i.loadEffect := by
  unfold checkedLoadEffect loadEffect
  rw [i.checkedOffset_eq]
  cases loadWidth? i.funct3 <;> rfl

theorem checkedStoreEffect_eq : i.checkedStoreEffect = .ok i.storeEffect := by
  unfold checkedStoreEffect storeEffect
  rw [i.checkedOffset_eq]
  cases storeWidth? i.funct3 <;> rfl

theorem checkedRegisterJumpEffect_eq : i.checkedRegisterJumpEffect = .ok i.registerJumpEffect := by
  rw [checkedRegisterJumpEffect, i.checkedOffset_eq]
  rfl

theorem checkedBranchEffect_eq : i.checkedBranchEffect = .ok i.branchEffect := by
  unfold checkedBranchEffect branchEffect
  cases AluOp.ofBranch? i.funct3 with
  | none => rfl
  | some op =>
    dsimp only [bind, Except.bind]
    rw [op.checkedEval_eq, i.checkedOffset_eq]
    dsimp only
    split <;> rfl

theorem checkedJumpEffect_eq : i.checkedJumpEffect = .ok i.jumpEffect := by
  rw [checkedJumpEffect, Word.signExtendFrom_eq_ok i.imm (by decide)]
  rfl

theorem checkedUpperEffect_eq (opcode : Opcode) :
    i.checkedUpperEffect opcode = .ok (i.upperEffect opcode) := by
  rw [checkedUpperEffect, Word.signExtendFrom_eq_ok _ (by decide)]
  cases opcode <;> rfl

theorem checkedEffectOf_eq (format : Format) (opcode : Opcode) :
    i.checkedEffectOf format opcode = .ok (i.effectOf format opcode) := by
  cases format with
  | r => exact i.checkedRegisterEffect_eq
  | i =>
    cases opcode with
    | opImm => exact i.checkedImmediateEffect_eq
    | load => exact i.checkedLoadEffect_eq
    | lui | auipc | jal | jalr | branch | store | op => exact i.checkedRegisterJumpEffect_eq
  | s => exact i.checkedStoreEffect_eq
  | b => exact i.checkedBranchEffect_eq
  | j => exact i.checkedJumpEffect_eq
  | u => exact i.checkedUpperEffect_eq opcode

theorem checkedEffect_eq : i.checkedEffect = .ok i.effect := by
  unfold checkedEffect effect
  cases i.opcode with
  | none => rfl
  | some opcode =>
    cases i.format with
    | none => rfl
    | some format => exact i.checkedEffectOf_eq format opcode

theorem checkedExecute_eq : i.checkedExecute = .ok i.execute := by
  rw [checkedExecute, i.checkedEffect_eq]
  rfl

end InFlight

end FiveStage
