import FiveStage.Image
import FiveStage.Proofs.Conformance

/-
  Streams — what loading an image leaves in memory, and when

  How a stream cuts its bytes into deliveries does not matter: the bytes before its
  end or its first failure are taken one by one, and every fourth completes a word.
  Words are counted without a bound, but their addresses have 32 bits, so after 2 ^ 30
  words the next one goes to address 0 again. A memory of fewer words refuses a word
  before that happens; a larger one never does.

  What is proved:
    1. `drain_eq` — a stream is its delivered bytes and what comes after them.
    2. `push_of_took`, `absorb_of_took` — taking a byte, and taking many.
    3. `load_of_room`, `load_of_not_room` — the two ways in which loading ends.
    4. `load_exact` — the four outcomes in a memory of fewer than 2 ^ 30 words.
    5. `faithful_iff` — when loading never writes over what it has loaded.
-/

namespace FiveStage

/-! ## Words and their bytes -/

namespace Word

theorem byte_zero_cons (w : Word) (b : Byte) : byte ((w <<< 8) ||| b.setWidth 32) 0 = b := by
  apply BitVec.eq_of_getLsbD_eq
  intro i hi
  simp only [byte, BitVec.getLsbD_extractLsb', BitVec.getLsbD_or, BitVec.getLsbD_shiftLeft,
    BitVec.getLsbD_setWidth, Nat.mul_zero, Nat.zero_add, hi, decide_true, Bool.not_true,
    Bool.and_false, Bool.false_and, Bool.false_or, Bool.true_and, show i < 32 by omega]

theorem byte_succ_cons (w : Word) (b : Byte) {j : Nat} (hj : j + 1 < 4) :
    byte ((w <<< 8) ||| b.setWidth 32) (j + 1) = byte w j := by
  apply BitVec.eq_of_getLsbD_eq
  intro i hi
  have hb : b.getLsbD (8 * (j + 1) + i) = false := BitVec.getLsbD_of_ge _ _ (by omega)
  simp only [byte, BitVec.getLsbD_extractLsb', BitVec.getLsbD_or, BitVec.getLsbD_shiftLeft,
    BitVec.getLsbD_setWidth, hb, hi, show 8 * (j + 1) + i < 32 by omega,
    show ¬8 * (j + 1) + i < 8 by omega, show 8 * (j + 1) + i - 8 = 8 * j + i by omega,
    decide_true, decide_false, Bool.not_false, Bool.true_and, Bool.and_false, Bool.or_false]

/-- The bytes of a word are those that spell it, and zeros. -/
theorem byte_ofBytes (bs : List Byte) {j : Nat} (hj : j < 4) : byte (ofBytes bs) j = bs.getD j 0 := by
  induction bs generalizing j with
  | nil =>
    rw [List.getD_nil]
    exact BitVec.extractLsb'_zero
  | cons b bs ih =>
    cases j with
    | zero => exact byte_zero_cons _ b
    | succ j => exact (byte_succ_cons _ b hj).trans (ih (by omega))

end Word

namespace Image

/-- Word `k` of some bytes; where they end there are zeros. -/
def word (bs : List Byte) (k : Nat) : Word := Word.ofBytes ((bs.drop (4 * k)).take 4)

theorem byte_word (bs : List Byte) (k : Nat) {j : Nat} (hj : j < 4) :
    Word.byte (word bs k) j = bs.getD (4 * k + j) 0 := by
  rw [word, Word.byte_ofBytes _ hj]
  simp only [List.getD_eq_getElem?_getD, List.getElem?_take, if_pos hj, List.getElem?_drop]

/-- A complete word is the same whatever follows. -/
theorem word_append {bs : List Byte} (cs : List Byte) {k : Nat} (h : 4 * (k + 1) ≤ bs.length) :
    word (bs ++ cs) k = word bs k := by
  rw [word, word, List.drop_append_of_le_length (by omega),
    List.take_append_of_le_length (by rw [List.length_drop]; omega)]

/-! ## Streams -/

/-- The bytes of a stream up to its end or its first failure. -/
def delivered : List Delivery → List Byte
  | .bytes (b :: bs) :: rest => b :: bs ++ delivered rest
  | .interrupted :: rest => delivered rest
  | _ => []

/-- What a stream fails with before its end. -/
def failure? : List Delivery → Option String
  | .bytes (_ :: _) :: rest => failure? rest
  | .interrupted :: rest => failure? rest
  | .failed text :: _ => some text
  | _ => none

namespace Filling

/-- What comes after the delivered bytes: an incomplete word is written at the end of a
stream and given up where the stream fails. -/
def finish (failure : Option String) : Filling × Option Obstacle → Filling × Option Obstacle
  | (f, some o) => (f, some o)
  | (f, none) =>
    match failure with
    | none => f.close
    | some text => (f, some (.stream text))

theorem absorb_append (f : Filling) (bs cs : List Byte) :
    f.absorb (bs ++ cs) =
      match f.absorb bs with
      | (g, none) => g.absorb cs
      | (g, some o) => (g, some o) := by
  induction bs generalizing f with
  | nil => rfl
  | cons b bs ih =>
    simp only [List.cons_append, absorb]
    cases f.push b with
    | error e => rfl
    | ok g => exact ih g

/-- A stream is its delivered bytes and what comes after them. -/
theorem drain_eq (stream : List Delivery) (f : Filling) :
    f.drain stream = finish (failure? stream) (f.absorb (delivered stream)) := by
  induction stream generalizing f with
  | nil => rfl
  | cons d rest ih =>
    cases d with
    | interrupted => exact ih f
    | failed text => rfl
    | bytes bs =>
      cases bs with
      | nil => rfl
      | cons b bs =>
        rw [drain, delivered, failure?, absorb_append]
        · rcases f.absorb (b :: bs) with ⟨g, _ | o⟩
          · exact ih g
          · rfl
        · nofun

end Filling

/-- The number of words that a stream is written as, given room: all of them, or those
that are complete when it fails. -/
def wordCount (stream : List Delivery) : Nat :=
  match failure? stream with
  | none => ((delivered stream).length + 3) / 4
  | some _ => (delivered stream).length / 4

/-! ## Memory filled from address 0 -/

def place (k : Nat) : Word := BitVec.ofNat 32 (4 * k)

/-- After 2 ^ 30 words the addresses start again. -/
theorem cellOf_place (k : Nat) : (place k).cellOf = k % 2 ^ 30 := by
  rw [Word.toNat_cellOf, place, BitVec.toNat_ofNat]
  omega

theorem place_add_four (k : Nat) : place k + 4 = place (k + 1) := by
  rw [place, place, Nat.mul_succ, BitVec.ofNat_add]
  rfl

/-- So many words can be written one after the other. -/
def Room (mem : Memory) (count : Nat) : Prop := 2 ^ 30 ≤ mem.capacity ∨ count ≤ mem.capacity

variable {mem m : Memory} {bs : List Byte} {k : Nat} {f : Filling}

theorem Room.mono {n : Nat} (h : Room mem n) (hk : k ≤ n) : Room mem k :=
  h.imp_right (Nat.le_trans hk)

theorem not_room_iff : ¬Room mem k ↔ mem.capacity < 2 ^ 30 ∧ mem.capacity < k := by
  unfold Room
  omega

/-- Where there is room for the words before it, a word is refused for lack of room
alone. -/
theorem holds_place_iff (h : Room mem k) : mem.Holds (place k) ↔ Room mem (k + 1) := by
  unfold Memory.Holds Room at *
  rw [cellOf_place]
  omega

/-- The memory `m` that `count` words make of `mem`: of the words whose address is that
of a cell the cell holds the last. -/
structure Laid (mem : Memory) (bs : List Byte) (count : Nat) (m : Memory) : Prop where
  capacity : m.capacity = mem.capacity
  last : ∀ j, j < count → (∀ i, j < i → i < count → i % 2 ^ 30 ≠ j % 2 ^ 30) →
    m.cell (j % 2 ^ 30) = word bs j
  kept : ∀ i, (∀ j, j < count → j % 2 ^ 30 ≠ i) → m.cell i = mem.cell i

theorem Laid.zero (mem : Memory) (bs : List Byte) : Laid mem bs 0 mem where
  capacity := rfl
  last := nofun
  kept := fun _ _ => rfl

theorem Laid.append (cs : List Byte) (h : Laid mem bs k m) (hk : 4 * k ≤ bs.length) :
    Laid mem (bs ++ cs) k m where
  capacity := h.capacity
  last := by
    intro j hj hlast
    rw [word_append cs (by omega)]
    exact h.last j hj hlast
  kept := h.kept

theorem Laid.set (h : Laid mem bs k m) (hk : (place k).cellOf < m.capacity) :
    Laid mem bs (k + 1) (m.set (place k).cellOf (word bs k) hk) where
  capacity := h.capacity
  last := by
    intro j hj hlast
    rw [Memory.cell_set, cellOf_place]
    -- the word just written is the last of its cell, and no other cell is touched
    by_cases hjk : j = k
    · rw [if_pos (by rw [hjk]), hjk]
    · rw [if_neg (hlast k (by omega) (by omega))]
      exact h.last j (by omega) fun i hji hik => hlast i hji (by omega)
  kept := by
    intro i hi
    rw [Memory.cell_set, cellOf_place, if_neg (hi k (by omega))]
    exact h.kept i fun j hj => hi j (by omega)

/-- In memory there are the first `count` words of some bytes, and else what was there. -/
structure Filled (mem : Memory) (bs : List Byte) (count : Nat) (m : Memory) : Prop where
  capacity : m.capacity = mem.capacity
  byte : ∀ i, i < count → ∀ j, j < 4 → Word.byte (m.cell i) j = bs.getD (4 * i + j) 0
  rest : ∀ i, count ≤ i → m.cell i = mem.cell i

/-- Up to 2 ^ 30 words have each an address of their own. -/
theorem Laid.filled (h : Laid mem bs k m) (hk : k ≤ 2 ^ 30) : Filled mem bs k m where
  capacity := h.capacity
  byte := by
    intro i hi j hj
    have hcell := h.last i hi fun i' h1 h2 => by omega
    rw [Nat.mod_eq_of_lt (show i < 2 ^ 30 by omega)] at hcell
    calc Word.byte (m.cell i) j = Word.byte (word bs i) j := by rw [hcell]
      _ = bs.getD (4 * i + j) 0 := byte_word bs i hj
  rest := by
    intro i hi
    exact h.kept i fun j hj => by omega

/-! ## Taking bytes -/

/-- `k` words of some bytes have been written. -/
structure Written (mem : Memory) (bs : List Byte) (k : Nat) (f : Filling) : Prop where
  address : f.address = place k
  words : f.words = k
  room : Room mem k
  laid : Laid mem bs k f.mem

/-- Some bytes have been taken: what is complete of them is written, the rest is
collected. -/
structure Took (mem : Memory) (bs : List Byte) (f : Filling) : Prop where
  written : Written mem bs (bs.length / 4) f
  collected : f.collected = bs.drop (4 * (bs.length / 4))

theorem took_start (mem : Memory) : Took mem [] (Filling.start mem) where
  written := ⟨rfl, rfl, .inr (Nat.zero_le _), Laid.zero mem []⟩
  collected := rfl

theorem Written.append (cs : List Byte) (h : Written mem bs k f) (hk : 4 * k ≤ bs.length) :
    Written mem (bs ++ cs) k f :=
  { h with laid := h.laid.append cs hk }

theorem Written.flush (h : Written mem bs k f) (hc : Word.ofBytes f.collected = word bs k) :
    (∃ g, f.flush = .ok g ∧ g.collected = [] ∧ Written mem bs (k + 1) g) ∨
      (f.flush = .error ⟨place k⟩ ∧ ¬Room mem (k + 1)) := by
  have hiff : f.mem.Holds (place k) ↔ Room mem (k + 1) := by
    rw [← holds_place_iff h.room, Memory.Holds, Memory.Holds, h.laid.capacity]
  rw [Filling.flush, hc, h.address]
  by_cases hroom : Room mem (k + 1)
  · have hk := hiff.mpr hroom
    rw [Memory.write_of_holds hk]
    exact .inl ⟨_, rfl, rfl, place_add_four k, congrArg (· + 1) h.words, hroom, h.laid.set hk⟩
  · rw [Memory.write_of_not_holds fun hk => hroom (hiff.mp hk)]
    exact .inr ⟨rfl, hroom⟩

/-- Loading has ended because memory is full. -/
structure Overran (mem : Memory) (bs : List Byte) (r : Filling × Option Obstacle) : Prop where
  obstacle : r.2 = some (.memory ⟨place mem.capacity⟩)
  laid : Laid mem bs mem.capacity r.1.mem

/-- Memory is full when there is room for the words so far and not for one more. -/
theorem Written.overran (h : Written mem bs k f) (hroom : ¬Room mem (k + 1)) :
    Overran mem bs (f, some (.memory ⟨place k⟩)) := by
  have hk : k = mem.capacity := by
    have hlt := not_room_iff.mp hroom
    rcases h.room with hW | hle
    · omega
    · omega
  subst hk
  exact ⟨rfl, h.laid⟩

theorem push_of_took (h : Took mem bs f) (b : Byte) :
    (∃ g, f.push b = .ok g ∧ Took mem (bs ++ [b]) g) ∨
      (f.push b = .error ⟨place (bs.length / 4)⟩ ∧ ¬Room mem (bs.length / 4 + 1) ∧
        bs.length / 4 + 1 = (bs ++ [b]).length / 4) := by
  have hlen : (bs ++ [b]).length = bs.length + 1 := List.length_append
  have hc : f.collected ++ [b] = (bs ++ [b]).drop (4 * (bs.length / 4)) := by
    rw [h.collected, List.drop_append_of_le_length (by omega)]
  have hcl : (f.collected ++ [b]).length = bs.length % 4 + 1 := by
    rw [hc, List.length_drop, hlen]
    omega
  have hw : Written mem (bs ++ [b]) (bs.length / 4) { f with collected := f.collected ++ [b] } :=
    let ⟨ha, hn, hr, hl⟩ := h.written.append [b] (by omega)
    ⟨ha, hn, hr, hl⟩
  by_cases h4 : (f.collected ++ [b]).length = 4
  · have hq : bs.length / 4 + 1 = (bs ++ [b]).length / 4 := by omega
    have hp : f.push b = Filling.flush { f with collected := f.collected ++ [b] } := if_pos h4
    rw [hp]
    rcases hw.flush (by rw [word, ← hc, List.take_of_length_le (Nat.le_of_eq h4)]) with
      ⟨g, hg, hnil, hwritten⟩ | ⟨hg, hroom⟩
    · refine .inl ⟨g, hg, ?_, ?_⟩
      · rwa [← hq]
      · rw [hnil, List.drop_of_length_le (by omega)]
    · exact .inr ⟨hg, hroom, hq⟩
  · have hq : (bs ++ [b]).length / 4 = bs.length / 4 := by omega
    refine .inl ⟨_, if_neg h4, ?_, ?_⟩
    · rwa [hq]
    · rw [hq, ← hc]

theorem absorb_of_took (cs : List Byte) (h : Took mem bs f) :
    (∃ g, f.absorb cs = (g, none) ∧ Took mem (bs ++ cs) g) ∨
      (Overran mem (bs ++ cs) (f.absorb cs) ∧ ¬Room mem ((bs ++ cs).length / 4)) := by
  induction cs generalizing bs f with
  | nil =>
    refine .inl ⟨f, rfl, ?_⟩
    rwa [List.append_nil]
  | cons b cs ih =>
    rw [List.append_cons, Filling.absorb]
    rcases push_of_took h b with ⟨g, hg, htook⟩ | ⟨he, hroom, hq⟩
    · rw [hg]
      exact ih htook
    · rw [he]
      have hw := h.written.append ([b] ++ cs) (by omega)
      rw [← List.append_assoc] at hw
      have hle : bs.length / 4 + 1 ≤ (bs ++ [b] ++ cs).length / 4 := by
        rw [hq]
        exact Nat.div_le_div_right (List.sublist_append_left _ cs).length_le
      exact .inr ⟨hw.overran hroom, fun hr => hroom (hr.mono hle)⟩

theorem close_of_took (h : Took mem bs f) :
    (∃ g, f.close = (g, none) ∧ Written mem bs ((bs.length + 3) / 4) g) ∨
      (Overran mem bs f.close ∧ ¬Room mem ((bs.length + 3) / 4)) := by
  have hcl : f.collected.length = bs.length % 4 := by
    rw [h.collected, List.length_drop]
    omega
  unfold Filling.close
  by_cases hnil : f.collected.isEmpty
  · have h0 : f.collected.length = 0 := List.length_eq_zero_iff.mpr (List.isEmpty_iff.mp hnil)
    have hq : (bs.length + 3) / 4 = bs.length / 4 := by omega
    rw [if_pos hnil, hq]
    exact .inl ⟨f, rfl, h.written⟩
  · have h0 : f.collected.length ≠ 0 := by
      intro h0
      exact hnil (List.isEmpty_iff.mpr (List.length_eq_zero_iff.mp h0))
    have hq : (bs.length + 3) / 4 = bs.length / 4 + 1 := by omega
    rw [if_neg hnil, hq]
    have hc : Word.ofBytes f.collected = word bs (bs.length / 4) := by
      rw [word, ← h.collected, List.take_of_length_le (by omega)]
    rcases h.written.flush hc with ⟨g, hg, -, hwritten⟩ | ⟨he, hroom⟩
    · rw [hg]
      exact .inl ⟨g, rfl, hwritten⟩
    · rw [he]
      exact .inr ⟨h.written.overran hroom, hroom⟩

/-! ## Loading -/

variable {stream : List Delivery}

theorem Overran.finish (failure : Option String) {r : Filling × Option Obstacle}
    (h : Overran mem bs r) : Overran mem bs (Filling.finish failure r) := by
  obtain ⟨g, o⟩ := r
  obtain rfl : o = _ := h.obstacle
  exact h

/-- A stream has been drained: every word is written, or memory is full. -/
theorem drain_cases (mem : Memory) (stream : List Delivery) :
    (∃ g, (Filling.start mem).drain stream = (g, (failure? stream).map .stream) ∧
        Written mem (delivered stream) (wordCount stream) g) ∨
      (Overran mem (delivered stream) ((Filling.start mem).drain stream) ∧
        ¬Room mem (wordCount stream)) := by
  rw [Filling.drain_eq, wordCount]
  rcases absorb_of_took (delivered stream) (took_start mem) with ⟨g, hg, htook⟩ | ⟨hover, hroom⟩
  · rw [hg]
    cases failure? stream with
    | none =>
      rcases close_of_took htook with ⟨g', hg', hwritten⟩ | hover
      · exact .inl ⟨g', hg', hwritten⟩
      · exact .inr hover
    | some text => exact .inl ⟨g, rfl, htook.written⟩
  · refine .inr ⟨hover.finish _, fun hr => hroom ?_⟩
    rw [List.nil_append]
    cases hf : failure? stream with
    | none =>
      simp only [hf] at hr
      exact hr.mono (by omega)
    | some text =>
      simp only [hf] at hr
      exact hr

theorem load_eq (mem : Memory) (stream : List Delivery) :
    load mem stream =
      (((Filling.start mem).drain stream).1.mem,
        match ((Filling.start mem).drain stream).2 with
        | none => .ok ((Filling.start mem).drain stream).1.words
        | some o => .error o) := by
  rw [load]
  rcases (Filling.start mem).drain stream with ⟨g, _ | o⟩
  · rfl
  · rfl

/-- How loading ends where there is room. -/
def outcome (stream : List Delivery) : Except Obstacle Nat :=
  match failure? stream with
  | none => .ok (wordCount stream)
  | some text => .error (.stream text)

theorem load_of_room (h : Room mem (wordCount stream)) :
    ∃ m, load mem stream = (m, outcome stream) ∧
      Laid mem (delivered stream) (wordCount stream) m := by
  rcases drain_cases mem stream with ⟨g, hg, hwritten⟩ | ⟨-, hroom⟩
  · refine ⟨g.mem, ?_, hwritten.laid⟩
    rw [load_eq, hg, outcome]
    cases failure? stream with
    | none => rw [Option.map_none, hwritten.words]
    | some text => rfl
  · exact absurd h hroom

theorem load_of_not_room (h : ¬Room mem (wordCount stream)) :
    ∃ m, load mem stream = (m, .error (.memory ⟨place mem.capacity⟩)) ∧
      Laid mem (delivered stream) mem.capacity m := by
  rcases drain_cases mem stream with ⟨g, -, hwritten⟩ | ⟨hover, -⟩
  · exact absurd hwritten.room h
  · exact ⟨_, by rw [load_eq, hover.obstacle], hover.laid⟩

/-- Streams of the same bytes that end alike are loaded alike. -/
theorem load_congr (mem : Memory) {stream' : List Delivery}
    (hd : delivered stream' = delivered stream) (hf : failure? stream' = failure? stream) :
    load mem stream' = load mem stream := by
  rw [load_eq, load_eq, Filling.drain_eq, Filling.drain_eq, hd, hf]

/-- **Loading an image is exact.** In a memory of fewer than 2 ^ 30 words, a stream that
ends is written as its bytes padded to words, and one that fails as the words that are
complete by then, with what it fails with; if that is more than memory holds, memory is
filled and the first address behind it refused. What is not written to stays. Nothing but
the delivered bytes and the way the stream ends has any influence. -/
theorem load_exact (mem : Memory) (stream : List Delivery) (hW : mem.capacity < 2 ^ 30) :
    (failure? stream = none →
      (((delivered stream).length + 3) / 4 ≤ mem.capacity →
        ∃ m, load mem stream = (m, .ok (((delivered stream).length + 3) / 4)) ∧
          Filled mem (delivered stream) (((delivered stream).length + 3) / 4) m) ∧
      (mem.capacity < ((delivered stream).length + 3) / 4 →
        ∃ m, load mem stream =
            (m, .error (.memory ⟨BitVec.ofNat 32 (4 * mem.capacity)⟩)) ∧
          Filled mem (delivered stream) mem.capacity m)) ∧
    (∀ text, failure? stream = some text →
      ((delivered stream).length / 4 ≤ mem.capacity →
        ∃ m, load mem stream = (m, .error (.stream text)) ∧
          Filled mem (delivered stream) ((delivered stream).length / 4) m) ∧
      (mem.capacity < (delivered stream).length / 4 →
        ∃ m, load mem stream =
            (m, .error (.memory ⟨BitVec.ofNat 32 (4 * mem.capacity)⟩)) ∧
          Filled mem (delivered stream) mem.capacity m)) ∧
    ∀ stream', delivered stream' = delivered stream → failure? stream' = failure? stream →
      load mem stream' = load mem stream := by
  have hroom : wordCount stream ≤ mem.capacity →
      ∃ m, load mem stream = (m, outcome stream) ∧
        Filled mem (delivered stream) (wordCount stream) m := by
    intro hle
    obtain ⟨m, hm, hl⟩ := load_of_room (.inr hle)
    exact ⟨m, hm, hl.filled (by omega)⟩
  have hfull : mem.capacity < wordCount stream →
      ∃ m, load mem stream = (m, .error (.memory ⟨place mem.capacity⟩)) ∧
        Filled mem (delivered stream) mem.capacity m := by
    intro hlt
    obtain ⟨m, hm, hl⟩ := load_of_not_room (not_room_iff.mpr ⟨hW, hlt⟩)
    exact ⟨m, hm, hl.filled (by omega)⟩
  refine ⟨?ends, ?fails, fun stream' hd hf => load_congr mem hd hf⟩
  case ends =>
    intro hf
    simp only [wordCount, outcome, hf] at hroom hfull
    exact ⟨hroom, hfull⟩
  case fails =>
    intro text hf
    simp only [wordCount, outcome, hf] at hroom hfull
    exact ⟨hroom, hfull⟩

/-- A word cut in two, with a note to try again between its parts, and a byte more. -/
def cutStream : List Delivery :=
  [.bytes [0x93, 0x00], .interrupted, .bytes [0x70, 0x00, 0x0f], .bytes [], .failed "late"]

theorem load_exact_at_cutStream :
    ∃ m, load (Memory.zeroed 2) cutStream = (m, .ok 2) ∧
      Word.byte (m.cell 0) 2 = 0x70 ∧ Word.byte (m.cell 1) 0 = 0x0f ∧ Word.byte (m.cell 1) 1 = 0 := by
  obtain ⟨hends, -, -⟩ := load_exact (Memory.zeroed 2) cutStream (by decide)
  obtain ⟨m, hm, hfilled⟩ := (hends rfl).1 (by decide)
  refine ⟨m, hm, ?_, ?_, ?_⟩
  · exact (hfilled.byte 0 (by decide) 2 (by decide)).trans rfl
  · exact (hfilled.byte 1 (by decide) 0 (by decide)).trans rfl
  · exact (hfilled.byte 1 (by decide) 1 (by decide)).trans rfl

/-! ## Words written over -/

/-- A loaded image is all in memory, and one of more words than there are addresses for
in memory is refused. -/
structure Faithful (mem : Memory) (stream : List Delivery) : Prop where
  loaded : ∀ n, (load mem stream).2 = .ok n → n ≤ (load mem stream).1.capacity ∧
    ∀ i, i < n → ∀ j, j < 4 →
      Word.byte ((load mem stream).1.cell i) j = (delivered stream).getD (4 * i + j) 0
  refused : min mem.capacity (2 ^ 30) < ((delivered stream).length + 3) / 4 →
    ∃ e, (load mem stream).2 = .error (.memory e)

/-- In a memory that has a word at every address no word is refused. -/
theorem load_of_large (hW : 2 ^ 30 ≤ mem.capacity) (hf : failure? stream = none) :
    ∃ m, load mem stream = (m, .ok (((delivered stream).length + 3) / 4)) ∧
      Laid mem (delivered stream) (((delivered stream).length + 3) / 4) m := by
  have hroom : Room mem (wordCount stream) := .inl hW
  have h := load_of_room hroom
  simp only [wordCount, outcome, hf] at h
  exact h

theorem faithful_of_small (hf : failure? stream = none)
    (h : mem.capacity < 2 ^ 30 ∨ ((delivered stream).length + 3) / 4 ≤ 2 ^ 30) :
    Faithful mem stream := by
  have hcount : wordCount stream = ((delivered stream).length + 3) / 4 := by
    simp only [wordCount, hf]
  by_cases hroom : wordCount stream ≤ mem.capacity
  · obtain ⟨m, hm, hl⟩ := load_of_room (.inr hroom)
    have hfilled := hl.filled (by omega)
    constructor
    · intro n hn
      rw [hm] at hn ⊢
      simp only [outcome, hf] at hn
      obtain rfl := Except.ok.inj hn
      rw [hl.capacity]
      exact ⟨hroom, hfilled.byte⟩
    · intro hlt
      omega
  · have hnone : ¬Room mem (wordCount stream) := not_room_iff.mpr (by omega)
    obtain ⟨m, hm, -⟩ := load_of_not_room hnone
    constructor
    · intro n hn
      rw [hm] at hn
      exact absurd hn nofun
    · intro _
      exact ⟨_, by rw [hm]⟩

theorem delivered_bytes {bs : List Byte} (h : bs ≠ []) (rest : List Delivery) :
    delivered (.bytes bs :: rest) = bs ++ delivered rest := by
  cases bs with
  | nil => exact absurd rfl h
  | cons b bs => rfl

theorem failure?_bytes {bs : List Byte} (h : bs ≠ []) (rest : List Delivery) :
    failure? (.bytes bs :: rest) = failure? rest := by
  cases bs with
  | nil => exact absurd rfl h
  | cons b bs => rfl

/-- **When loading writes over what it has loaded.** Of a stream that ends, everything
is in memory or more than fits is refused just where memory has fewer than 2 ^ 30 words
or the stream has no more. In a memory with a word at every address the bytes are all
taken and their words counted, if 64 bits are enough for the count, and from address 0 on
the words of the last round are those that stay. -/
theorem faithful_iff (mem : Memory) (stream : List Delivery) (hf : failure? stream = none) :
    (Faithful mem stream ↔
      mem.capacity < 2 ^ 30 ∨ ((delivered stream).length + 3) / 4 ≤ 2 ^ 30) ∧
    (2 ^ 30 ≤ mem.capacity → ((delivered stream).length + 3) / 4 < 2 ^ 64 →
      ∃ m, load mem stream = (m, .ok (((delivered stream).length + 3) / 4)) ∧
        ∀ k, k < ((delivered stream).length + 3) / 4 →
          ((delivered stream).length + 3) / 4 ≤ k + 2 ^ 30 → ∀ j, j < 4 →
          Word.byte (m.cell (k % 2 ^ 30)) j = (delivered stream).getD (4 * k + j) 0) := by
  refine ⟨⟨?_, faithful_of_small hf⟩, ?_⟩
  · intro h
    refine Decidable.byContradiction fun hno => ?_
    have hW : 2 ^ 30 ≤ mem.capacity := by omega
    obtain ⟨m, hm, -⟩ := load_of_large hW hf
    obtain ⟨e, he⟩ := h.refused (by omega)
    rw [hm] at he
    exact absurd he nofun
  · intro hW _
    obtain ⟨m, hm, hl⟩ := load_of_large hW hf
    refine ⟨m, hm, fun k hk hlast j hj => ?_⟩
    have hcell := hl.last k hk fun i hki hi => by omega
    calc Word.byte (m.cell (k % 2 ^ 30)) j = Word.byte (word (delivered stream) k) j := by rw [hcell]
      _ = (delivered stream).getD (4 * k + j) 0 := byte_word _ k hj

/-- As many words as there are addresses for. -/
def brimful : List Delivery := [.bytes (List.replicate (2 ^ 32) 1)]

theorem replicate_ne_nil : List.replicate (2 ^ 32) (1 : Byte) ≠ [] := by
  simp only [ne_eq, List.replicate_eq_nil_iff]
  decide

/-- In a memory of as many words they are all in place once they are loaded, the last
one too. -/
theorem faithful_of_brimful :
    Faithful (Memory.zeroed (2 ^ 30)) brimful ∧
      ∃ m, load (Memory.zeroed (2 ^ 30)) brimful = (m, .ok (2 ^ 30)) ∧
        ∀ j, j < 4 → Word.byte (m.cell (2 ^ 30 - 1)) j = 1 := by
  have hd : delivered brimful = List.replicate (2 ^ 32) 1 :=
    (delivered_bytes replicate_ne_nil []).trans (List.append_nil _)
  have hwords : ((delivered brimful).length + 3) / 4 = 2 ^ 30 := by
    rw [hd, List.length_replicate]
    rfl
  obtain ⟨hiff, hkept⟩ :=
    faithful_iff (Memory.zeroed (2 ^ 30)) brimful (failure?_bytes replicate_ne_nil [])
  rw [hwords] at hiff hkept
  obtain ⟨m, hm, hbyte⟩ := hkept (Nat.le_refl _) (by decide)
  refine ⟨hiff.mpr (.inr (Nat.le_refl _)), m, hm, fun j hj => ?_⟩
  have hlast := hbyte (2 ^ 30 - 1) (by omega) (by omega) j hj
  rw [Nat.mod_eq_of_lt (by omega), hd, List.getD_eq_getElem?_getD, List.getElem?_replicate,
    if_pos (by omega), Option.getD_some] at hlast
  exact hlast

/-- One word more than there are addresses for. -/
def overlong : List Delivery := [.bytes (List.replicate (2 ^ 32) 1), .bytes [2]]

/-- It is loaded with success into a memory of 2 ^ 30 words, where its last word then
stands in the place of its first. -/
theorem overlong_written_over :
    failure? overlong = none ∧ ¬Faithful (Memory.zeroed (2 ^ 30)) overlong ∧
      word (delivered overlong) 0 ≠ 2 ∧
      ∃ m, load (Memory.zeroed (2 ^ 30)) overlong = (m, .ok (2 ^ 30 + 1)) ∧ m.cell 0 = 2 := by
  have hd : delivered overlong = List.replicate (2 ^ 32) 1 ++ [2] :=
    delivered_bytes replicate_ne_nil _
  have hf : failure? overlong = none := failure?_bytes replicate_ne_nil _
  have hlen : (delivered overlong).length = 2 ^ 32 + 1 := by
    rw [hd, List.length_append, List.length_replicate]
    rfl
  have hW : 2 ^ 30 ≤ (Memory.zeroed (2 ^ 30)).capacity := Nat.le_refl _
  obtain ⟨m, hm, hl⟩ := load_of_large hW hf
  rw [hlen] at hm hl
  refine ⟨hf, ?faithful, ?first, m, hm, ?last⟩
  case faithful =>
    intro h
    have hle := (h.loaded _ (by rw [hm])).1
    rw [hm, hl.capacity] at hle
    exact absurd hle (by decide)
  case first =>
    intro h2
    have h1 : (delivered overlong).getD 0 0 = 1 := by
      rw [hd, List.getD_eq_getElem?_getD, List.getElem?_append_left (by
        rw [List.length_replicate]
        decide), List.getElem?_replicate, if_pos (by decide)]
      rfl
    have hb := byte_word (delivered overlong) 0 (show 0 < 4 by decide)
    rw [h2, h1] at hb
    exact absurd hb (by decide)
  case last =>
    have hw : word (delivered overlong) (2 ^ 30) = 2 := by
      rw [word, hd, List.drop_left' (by
        rw [List.length_replicate]
        decide)]
      decide
    exact (hl.last (2 ^ 30) (by decide) fun i h1 h2 => by omega).trans hw

end Image

end FiveStage
