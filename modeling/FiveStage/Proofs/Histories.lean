import FiveStage.Proofs.Conformance

/-
  Histories — memory is a map of words, bounded by its capacity, whatever it is asked

  Here memory is seen from outside, as calls and their answers. What an answer has to be
  is said by the calls made so far and the answers to them, and not by cells: a call is
  refused for its address alone, and a read tells what the latest write to the same word
  has left there, if any has been let through. Addresses of one word differ in their low
  two bits, so the word of an address is told by division.

  The invariant is on all cells at once: a cell holds what the latest write to it in the
  history has left, or else what it held before (`cell_after`). Which calls the history
  let through does not change on the way, for the capacity never does.

  What is proved:
    1. `perform_read`, `perform_write`, `perform_of_not_holds` — one call, by its address.
    2. `insist_eq` — the same call where a refusal is a fault.
    3. `cell_perform`, `cell_after` — what a call, and a history of calls, leaves in a cell.
    4. `recalls_throughout` — so a memory that has been allocated answers as a bounded map
       after every history; `unallocated_span`: there are capacities that none has.
-/

namespace FiveStage

namespace Memory

/-! ## Calls and answers -/

/-- What memory is asked for. -/
inductive Call where
  | read (address : Word)
  | write (address value : Word)
  deriving DecidableEq, Repr

/-- The answer to a call that is let through. -/
inductive Reply where
  | value (w : Word)
  | done
  deriving DecidableEq, Repr

namespace Call

def address : Call → Word
  | read a => a
  | write a _ => a

/-- The number of the word that a call is about. -/
def word (c : Call) : Nat := c.address.toNat / 4

/-- The fault that a refusal is to a caller who insists. -/
def fault : Call → OutOfBounds → Fault
  | read _ => .load
  | write _ _ => .store

end Call

/-- One call that may be refused: the answer, and memory afterwards. -/
def perform (m : Memory) : Call → Except OutOfBounds Reply × Memory
  | .read a => ((m.read a).map .value, m)
  | .write a v =>
    match m.write a v with
    | .ok m' => (.ok .done, m')
    | .error e => (.error e, m)

/-- The same call where a refusal is a fault. -/
def insist (m : Memory) : Call → Except Fault (Reply × Memory)
  | .read a => (m.load a).map fun w => (.value w, m)
  | .write a v => (m.store a v).map fun m' => (.done, m')

/-- Memory after some calls, refused or not. -/
def after (m : Memory) : List Call → Memory
  | [] => m
  | c :: calls => (m.perform c).2.after calls

/-- A call that has been made, and the answer to it. -/
structure Exchange where
  call : Call
  answer : Except OutOfBounds Reply

/-- What is seen of some calls from outside, in their order. -/
def history (m : Memory) : List Call → List Exchange
  | [] => []
  | c :: calls => ⟨c, (m.perform c).1⟩ :: (m.perform c).2.history calls

/-- The value that an exchange has left in word `k`, if it is a write to that word and was
let through. -/
def Exchange.left? (k : Nat) : Exchange → Option Word
  | ⟨.write a v, .ok _⟩ => if a.toNat / 4 = k then some v else none
  | _ => none

/-- What the latest write to word `k` has left there; where there has been none, `old`. -/
def latest (old : Word) (k : Nat) (h : List Exchange) : Word :=
  (h.filterMap (Exchange.left? k)).getLast?.getD old

/-- How a memory of so many words, all zero at first, has to answer the next call, whatever
it is, after a history. -/
structure Recalls (words : Nat) (h : List Exchange) (m : Memory) : Prop where
  size : m.size = 4 * words
  granted_iff : ∀ c, (∃ r, (m.perform c).1 = .ok r) ↔ c.word < words
  refused : ∀ c, words ≤ c.word → m.perform c = (.error ⟨c.address⟩, m)
  recalled : ∀ a r, (m.perform (.read a)).1 = .ok r → r = .value (latest 0 (a.toNat / 4) h)
  insisted : ∀ c r m', m.insist c = .ok (r, m') ↔ m.perform c = (.ok r, m')
  faulted : ∀ c f, m.insist c = .error f ↔ ∃ e, (m.perform c).1 = .error e ∧ f = c.fault e

/-! ## One call -/

variable {m : Memory}

theorem holds_iff_word (c : Call) : m.Holds c.address ↔ c.word < m.capacity := by
  rw [Holds, Word.toNat_cellOf, Call.word]

theorem perform_read {a : Word} (h : m.Holds a) :
    m.perform (.read a) = (.ok (.value (m.cell a.cellOf)), m) := by
  rw [perform, read_of_holds h]
  rfl

theorem perform_write {a : Word} (h : m.Holds a) (v : Word) :
    m.perform (.write a v) = (.ok .done, m.set a.cellOf v h) := by
  rw [perform, write_of_holds h]

theorem perform_of_not_holds {c : Call} (h : ¬m.Holds c.address) :
    m.perform c = (.error ⟨c.address⟩, m) := by
  cases c with
  | read a =>
    have ha : ¬m.Holds a := h
    rw [perform, read_of_not_holds ha]
    rfl
  | write a v =>
    have ha : ¬m.Holds a := h
    rw [perform, write_of_not_holds ha]
    rfl

/-- A call is let through as a read or as a write, or it is refused. -/
theorem call_cases (m : Memory) (c : Call) :
    (∃ a, c = .read a ∧ m.Holds a) ∨ (∃ a v, c = .write a v ∧ m.Holds a) ∨
      ¬m.Holds c.address := by
  by_cases h : m.Holds c.address
  · cases c with
    | read a => exact .inl ⟨a, rfl, h⟩
    | write a v => exact .inr (.inl ⟨a, v, rfl, h⟩)
  · exact .inr (.inr h)

theorem granted_iff_holds (c : Call) : (∃ r, (m.perform c).1 = .ok r) ↔ m.Holds c.address := by
  rcases m.call_cases c with ⟨a, rfl, h⟩ | ⟨a, v, rfl, h⟩ | h
  · exact iff_of_true ⟨_, congrArg Prod.fst (perform_read h)⟩ h
  · exact iff_of_true ⟨_, congrArg Prod.fst (perform_write h v)⟩ h
  · rw [perform_of_not_holds h]
    exact iff_of_false nofun h

/-- Where a call is answered, to insist on it gives the same; a refusal becomes a fault. -/
theorem insist_eq (m : Memory) (c : Call) :
    m.insist c = match m.perform c with
      | (.ok r, m') => .ok (r, m')
      | (.error e, _) => .error (c.fault e) := by
  cases c with
  | read a =>
    simp only [insist, perform, load]
    cases m.read a <;> rfl
  | write a v =>
    simp only [insist, perform, store]
    cases m.write a v <;> rfl

theorem insist_eq_ok_iff {c : Call} {r : Reply} {m' : Memory} :
    m.insist c = .ok (r, m') ↔ m.perform c = (.ok r, m') := by
  rw [insist_eq]
  rcases m.perform c with ⟨e | r, _⟩ <;> simp

theorem insist_eq_error_iff {c : Call} {f : Fault} :
    m.insist c = .error f ↔ ∃ e, (m.perform c).1 = .error e ∧ f = c.fault e := by
  rw [insist_eq]
  rcases m.perform c with ⟨e | r, _⟩ <;> simp [eq_comm]

theorem capacity_perform (m : Memory) (c : Call) : (m.perform c).2.capacity = m.capacity := by
  rcases m.call_cases c with ⟨a, rfl, h⟩ | ⟨a, v, rfl, h⟩ | h
  · rfl
  · rw [perform_write h]
    rfl
  · rw [perform_of_not_holds h]

/-- A call leaves in a cell what it has written there, if it is a write to that cell and is
let through. -/
theorem cell_perform (m : Memory) (c : Call) (k : Nat) :
    (m.perform c).2.cell k = (Exchange.left? k ⟨c, (m.perform c).1⟩).getD (m.cell k) := by
  rcases m.call_cases c with ⟨a, rfl, h⟩ | ⟨a, v, rfl, h⟩ | h
  · rfl
  · rw [perform_write h]
    refine (cell_set m a.cellOf k v h).trans ?_
    dsimp only [Exchange.left?]
    rw [Word.toNat_cellOf]
    split <;> rfl
  · rw [perform_of_not_holds h]
    cases c <;> rfl

/-! ## Histories -/

theorem capacity_after (m : Memory) (calls : List Call) :
    (m.after calls).capacity = m.capacity := by
  induction calls generalizing m with
  | nil => rfl
  | cons c calls ih => rw [after, ih, capacity_perform]

theorem latest_cons (old : Word) (k : Nat) (x : Exchange) (h : List Exchange) :
    latest old k (x :: h) = latest ((x.left? k).getD old) k h := by
  unfold latest
  rw [List.filterMap_cons]
  cases x.left? k with
  | none => rfl
  | some v => rw [List.getLast?_cons]; rfl

/-- A history leaves in a cell what the latest write to it has left. -/
theorem cell_after (m : Memory) (calls : List Call) (k : Nat) :
    (m.after calls).cell k = latest (m.cell k) k (m.history calls) := by
  induction calls generalizing m with
  | nil => rfl
  | cons c calls ih => rw [after, history, latest_cons, ← cell_perform, ih]

theorem recalls_after (words : Nat) (past : List Call) :
    ((zeroed words).after past).Recalls words ((zeroed words).history past) := by
  have hcap : ((zeroed words).after past).capacity = words := capacity_after _ past
  constructor
  case size => rw [size, hcap]
  case granted_iff =>
    intro c
    rw [granted_iff_holds, holds_iff_word, hcap]
  case refused =>
    intro c hc
    apply perform_of_not_holds
    rw [holds_iff_word, hcap]
    exact Nat.not_lt.mpr hc
  case recalled =>
    intro a r hr
    have ha : ((zeroed words).after past).Holds a := (granted_iff_holds (.read a)).mp ⟨r, hr⟩
    rw [perform_read ha, cell_after, cell_zeroed, Word.toNat_cellOf] at hr
    exact (Except.ok.inj hr).symm
  case insisted => exact fun _ _ _ => insist_eq_ok_iff
  case faulted => exact fun _ _ => insist_eq_error_iff

theorem Recalls.answer_of_lt {words : Nat} {h : List Exchange} (hm : m.Recalls words h) {a : Word}
    (ha : a.toNat / 4 < words) :
    (m.perform (.read a)).1 = .ok (.value (latest 0 (a.toNat / 4) h)) := by
  obtain ⟨r, hr⟩ := (hm.granted_iff (.read a)).mpr ha
  rw [hr, hm.recalled a r hr]

/-- **Memory is a bounded map of words, over any history.** There is a memory of so many
words just if they span less than `spanLimit` bytes. After whatever calls have been made to
it, its size is what it was, and the next call succeeds just if the word of its address
is below its capacity. A call that does not is refused for that address and changes nothing;
a read that does tells what the latest successful write to the same word has left, and zero
if there was none. To insist on a call is a fault where it would be refused, and is the
same elsewhere. -/
theorem recalls_throughout (words : Nat) :
    (allocate words = .error .capacity ↔ spanLimit ≤ 4 * words) ∧
      (4 * words < spanLimit → ∃ m, allocate words = .ok m ∧
        ∀ past : List Call, (m.after past).Recalls words (m.history past)) := by
  constructor
  · unfold allocate
    split
    · exact iff_of_false nofun (by omega)
    · exact iff_of_true rfl (by omega)
  · intro h
    exact ⟨zeroed words, allocate_eq_ok_iff.mpr ⟨h, rfl⟩, recalls_after words⟩

/-- Two writes to word 1 by two of its addresses, among calls that two words refuse. -/
def aliases : List Call :=
  [.write 5 7, .write 8 1, .write 4 9, .read 12, .write 0xfffffffc 3]

/-- Of two words, one has been written to twice and one never; others there are none. -/
theorem recalls_aliases :
    ∃ m, allocate 2 = .ok m ∧ (m.after aliases).size = 8 ∧
      ((m.after aliases).perform (.read 6)).1 = .ok (.value 9) ∧
      ((m.after aliases).perform (.read 3)).1 = .ok (.value 0) ∧
      (m.after aliases).perform (.write 8 1) = (.error ⟨8⟩, m.after aliases) ∧
      (m.after aliases).insist (.write 8 1) = .error (.store ⟨8⟩) := by
  obtain ⟨m, hm, hall⟩ := (recalls_throughout 2).2 (by decide)
  have h := hall aliases
  obtain ⟨-, rfl⟩ := allocate_eq_ok_iff.mp hm
  have hwritten : latest 0 1 ((zeroed 2).history aliases) = 9 := by decide
  have hnever : latest 0 0 ((zeroed 2).history aliases) = 0 := by decide
  have hrefused := h.refused (.write 8 1) (by decide)
  refine ⟨_, hm, h.size, ?_, ?_, hrefused, ?_⟩
  · rw [← hwritten]
    exact h.answer_of_lt (by decide)
  · rw [← hnever]
    exact h.answer_of_lt (by decide)
  · exact (h.faulted _ _).mpr ⟨_, congrArg Prod.fst hrefused, rfl⟩

/-- A number of words whose bytes can be counted in 64 bits, and yet no memory has them: the
first of them cannot be read. -/
theorem unallocated_span :
    4 * 2 ^ 61 < 2 ^ 64 ∧ (Call.read 0).word < 2 ^ 61 ∧ allocate (2 ^ 61) = .error .capacity ∧
      ¬∀ words, 4 * words < 2 ^ 64 → ∃ m, allocate words = .ok m ∧
        ∀ past : List Call, (m.after past).Recalls words (m.history past) := by
  have hnone : allocate (2 ^ 61) = .error .capacity := rfl
  refine ⟨by decide, by decide, hnone, fun h => ?_⟩
  obtain ⟨m, hm, -⟩ := h (2 ^ 61) (by decide)
  rw [hnone] at hm
  exact absurd hm nofun

end Memory

end FiveStage
