import Mathlib.Tactic.Ring
import FiveStage.Proofs.Stopping

/-
  Transcripts — a trace read back

  A trace is text, written while a machine runs. To say that it tells what has been in
  the pipeline, it is read: text is cut into lines, a line into fields, and a field into
  a number, a word, a flag or a slot. What is read from the trace of a run is what the
  machine was like after each cycle, and that the trace is written changes nothing about
  the run.

  Reading undoes writing because no field has a comma or a line break in it; for the
  same reason none is ever put into quotation marks.

  What is proved:
    1. `number?_repr`, `word?_hex`, `slot?_slotText` — each kind of field is read back.
    2. `unquoted_of_mem_fields`, `lines?_flatMap` — where fields and lines end.
    3. `ofRecord?_record`, `read?_text` — so is a record, and a whole trace.
    4. `Run.notes_go`, `Run.ending_ne_refused` — the notes of an onlooker, and that one
       who never objects does not end a run.
    5. `trace_tells_history` — the trace of a run.
-/

namespace FiveStage

namespace Trace

/-! ## What a trace says -/

/-- What one record says. -/
structure Entry where
  cycle : Nat
  pc : Word
  stall : Bool
  slots : List (Option Word)
  deriving DecidableEq, Repr

namespace Entry

/-- What is to be said of a machine after a cycle. -/
def of (cycle : Nat) (m : Machine) : Entry :=
  ⟨cycle, m.cpu.pc, m.cpu.stall, m.slots.occupancy⟩

def fields (e : Entry) : List String :=
  [toString e.cycle, Word.hex e.pc, toString e.stall] ++ e.slots.map slotText

def record (e : Entry) : String := line e.fields

end Entry

/-- The fields of the header. -/
def headings : List String := ["cycle", "pc", "stall", "IF", "ID", "EX", "MEM", "WB"]

/-- The trace that says so much. -/
def text (entries : List Entry) : String := header ++ String.join (entries.map Entry.record)

theorem text_append_record (entries : List Entry) (cycle : Nat) (m : Machine) :
    text entries ++ record cycle m = text (entries ++ [.of cycle m]) := by
  have hrecord : record cycle m = (Entry.of cycle m).record := rfl
  simp only [text, hrecord, List.map_append, List.map_cons, List.map_nil, String.join_append,
    String.join_cons, String.join_nil, String.append_empty, String.append_assoc]

/-! ## Reading -/

/-- The number that decimal digits spell. -/
def number? (cs : List Char) : Option Nat :=
  if cs ≠ [] ∧ cs.all Char.isDigit then some (Nat.ofDigitChars 10 cs 0) else none

/-- The value of a hexadecimal digit. -/
def digit? (c : Char) : Option Nat := (List.range 16).find? (Nat.digitChar · == c)

/-- The word that eight hexadecimal digits spell, with their mark in front. -/
def word? : List Char → Option Word
  | '0' :: 'x' :: cs =>
    if cs.length = 8 then
      (cs.mapM digit?).map fun ds => BitVec.ofNat 32 (ds.foldl (fun v d => 16 * v + d) 0)
    else none
  | _ => none

def flag? (cs : List Char) : Option Bool :=
  [true, false].find? (fun b => (toString b).toList == cs)

/-- The address in a slot, or nothing where there is a dash. -/
def slot? (cs : List Char) : Option (Option Word) :=
  if cs = ['-'] then some none else (word? cs).map some

/-- What a line says, without its line break. -/
def Entry.ofLine? (cs : List Char) : Option Entry :=
  match cs.splitOn ',' with
  | cycle :: pc :: stall :: slots => do
    let cycle ← number? cycle
    let pc ← word? pc
    let stall ← flag? stall
    let slots ← slots.mapM slot?
    return ⟨cycle, pc, stall, slots⟩
  | _ => none

/-- The lines of a text in which each has a line break at its end. -/
def lines? (cs : List Char) : Option (List (List Char)) :=
  if (cs.splitOn '\n').getLast? = some [] then some (cs.splitOn '\n').dropLast else none

/-- What a record says. -/
def Entry.ofRecord? (record : String) : Option Entry :=
  match lines? record.toList with
  | some [l] => Entry.ofLine? l
  | _ => none

/-- What a trace says. -/
def read? (trace : String) : Option (List Entry) :=
  match lines? trace.toList with
  | some (first :: rest) =>
    if first = (join headings).toList then rest.mapM Entry.ofLine? else none
  | _ => none

/-! ## Fields -/

theorem mapM_map_of_inverse {α β : Type} {write : α → β} {read : β → Option α} {xs : List α}
    (h : ∀ x ∈ xs, read (write x) = some x) : (xs.map write).mapM read = some xs := by
  induction xs with
  | nil => rfl
  | cons x xs ih =>
    rw [List.map_cons, List.mapM_cons, h x List.mem_cons_self,
      ih fun y hy => h y (List.mem_cons_of_mem x hy)]
    rfl

theorem number?_repr (n : Nat) : number? (toString n).toList = some n := by
  rw [Nat.toString_eq_repr, Nat.toList_repr, number?, if_pos, Nat.ofDigitChars_toDigits]
  · decide
  · decide
  · refine ⟨Nat.toDigits_ne_nil, List.all_eq_true.mpr fun c hc => ?_⟩
    exact Nat.isDigit_of_mem_toDigits (by decide) (by decide) hc

theorem digit?_digitChar : ∀ d < 16, digit? (Nat.digitChar d) = some d := by decide

/-- The lowest digits of a number, highest first, are worth what it leaves modulo their
number. -/
theorem foldl_digits (n v k : Nat) :
    ((List.range k).reverse.map fun i => n / 16 ^ i % 16).foldl (fun v d => 16 * v + d) v =
      v * 16 ^ k + n % 16 ^ k := by
  induction k generalizing v with
  | zero => simp [Nat.mod_one]
  | succ k ih =>
    rw [List.range_succ, List.reverse_append, List.reverse_singleton, List.singleton_append,
      List.map_cons, List.foldl_cons, ih, Nat.mod_pow_succ, Nat.pow_succ]
    ring

theorem hexDigits_eq (w : Word) :
    w.hexDigits = ((List.range 8).reverse.map fun i => w.toNat / 16 ^ i % 16).map Nat.digitChar := by
  rw [Word.hexDigits, List.map_map]
  apply List.map_congr_left
  intro i _
  rw [BitVec.toNat_ushiftRight, Nat.shiftRight_eq_div_pow, Nat.pow_mul]
  rfl

theorem toList_hex (w : Word) : (Word.hex w).toList = '0' :: 'x' :: w.hexDigits := by
  have hmark : "0x".toList = ['0', 'x'] := rfl
  rw [Word.hex, String.toList_append, hmark, String.toList_ofList]
  rfl

theorem word?_hex (w : Word) : word? (Word.hex w).toList = some w := by
  have hlength : w.hexDigits.length = 8 := rfl
  have hdigits : w.hexDigits.mapM digit? =
      some ((List.range 8).reverse.map fun i => w.toNat / 16 ^ i % 16) := by
    rw [hexDigits_eq]
    apply mapM_map_of_inverse
    intro d hd
    obtain ⟨i, -, rfl⟩ := List.mem_map.mp hd
    exact digit?_digitChar _ (Nat.mod_lt _ (by decide))
  have hlt : w.toNat < 16 ^ 8 := w.isLt
  rw [toList_hex, word?, if_pos hlength, hdigits, Option.map_some, foldl_digits, Nat.zero_mul,
    Nat.zero_add, Nat.mod_eq_of_lt hlt, BitVec.ofNat_toNat, BitVec.setWidth_eq]

theorem flag?_toString (b : Bool) : flag? (toString b).toList = some b := by
  cases b <;> rfl

theorem slot?_slotText (slot : Option Word) : slot? (slotText slot).toList = some slot := by
  cases slot with
  | none => rfl
  | some pc =>
    have hdash : (Word.hex pc).toList ≠ ['-'] := by
      rw [toList_hex]
      exact nofun
    rw [slotText, slot?, if_neg hdash, word?_hex]
    rfl

/-! ## Where fields and lines end -/

/-- A letter, a digit or a dash. -/
def isPlain (c : Char) : Bool := c.isAlphanum || c == '-'

/-- A field is written as it is: it is not empty, and has no comma, quotation mark or
line break in it. -/
structure Unquoted (field : String) : Prop where
  nonempty : field ≠ ""
  plain : ∀ c ∈ field.toList, c ∉ [',', '\x22', '\r', '\n']

theorem Unquoted.of_isPlain {field : String} (hne : field ≠ "")
    (hplain : field.toList.all isPlain = true) : Unquoted field where
  nonempty := hne
  plain := by
    intro c hc hmem
    have hnone : [',', '\x22', '\r', '\n'].all (fun d => !isPlain d) = true := by decide
    have hnot := List.all_eq_true.mp hnone c hmem
    rw [List.all_eq_true.mp hplain c hc] at hnot
    exact absurd hnot nofun

theorem unquoted_number (n : Nat) : Unquoted (toString n) := by
  have hlist : (toString n).toList = Nat.toDigits 10 n := by
    rw [Nat.toString_eq_repr, Nat.toList_repr]
  apply Unquoted.of_isPlain
  · intro hempty
    rw [hempty] at hlist
    exact Nat.toDigits_ne_nil hlist.symm
  · rw [hlist, List.all_eq_true]
    intro c hc
    have hdigit : c.isDigit = true := Nat.isDigit_of_mem_toDigits (by decide) (by decide) hc
    rw [isPlain, Char.isAlphanum, hdigit, Bool.or_true, Bool.true_or]

theorem unquoted_hex (w : Word) : Unquoted (Word.hex w) := by
  have hdigit : ∀ d < 16, isPlain (Nat.digitChar d) = true := by decide
  apply Unquoted.of_isPlain
  · intro hempty
    have hlist := toList_hex w
    rw [hempty] at hlist
    exact absurd hlist nofun
  · have hdigits : w.hexDigits.all isPlain = true := by
      rw [hexDigits_eq, List.all_map, List.all_map, List.all_eq_true]
      intro i _
      exact hdigit _ (Nat.mod_lt _ (by decide))
    rw [toList_hex]
    exact hdigits

theorem unquoted_flag (b : Bool) : Unquoted (toString b) := by
  cases b with
  | true => exact .of_isPlain (by decide) (by decide)
  | false => exact .of_isPlain (by decide) (by decide)

theorem unquoted_slotText (slot : Option Word) : Unquoted (slotText slot) := by
  cases slot with
  | none => exact .of_isPlain (by decide) (by decide)
  | some pc => exact unquoted_hex pc

/-- No field of a record is ever put in quotation marks. -/
theorem unquoted_of_mem_fields {e : Entry} {field : String} (h : field ∈ e.fields) :
    Unquoted field := by
  rcases List.mem_append.mp h with hhead | hslots
  · rcases List.mem_cons.mp hhead with rfl | hhead
    · exact unquoted_number e.cycle
    · rcases List.mem_cons.mp hhead with rfl | hhead
      · exact unquoted_hex e.pc
      · obtain rfl := List.mem_singleton.mp hhead
        exact unquoted_flag e.stall
  · obtain ⟨slot, -, rfl⟩ := List.mem_map.mp hslots
    exact unquoted_slotText slot

theorem unquoted_of_mem_headings {field : String} (h : field ∈ headings) : Unquoted field := by
  have hall : headings.all (fun field => field != "" && field.toList.all isPlain) = true := by
    decide
  have hfield := List.all_eq_true.mp hall field h
  rw [Bool.and_eq_true, bne_iff_ne] at hfield
  exact .of_isPlain hfield.1 hfield.2

theorem toList_join (fields : List String) :
    (join fields).toList = [','].intercalate (fields.map String.toList) := by
  induction fields with
  | nil => rfl
  | cons field rest ih =>
    cases rest with
    | nil => simp [join]
    | cons next rest =>
      rw [join, String.toList_append, String.toList_append, ih]
      simp only [List.map_cons, List.intercalate_cons_cons]
      rfl

/-- Joined fields that need no quotation marks are taken apart again. -/
theorem splitOn_join {fields : List String} (hne : fields ≠ [])
    (h : ∀ field ∈ fields, Unquoted field) :
    (join fields).toList.splitOn ',' = fields.map String.toList := by
  rw [toList_join]
  apply List.splitOn_intercalate
  · intro cs hcs hcomma
    obtain ⟨field, hfield, rfl⟩ := List.mem_map.mp hcs
    exact (h field hfield).plain _ hcomma (by decide)
  · exact fun hnil => hne (List.map_eq_nil_iff.mp hnil)

theorem mem_join {fields : List String} {c : Char} (h : c ∈ (join fields).toList) :
    c = ',' ∨ ∃ field ∈ fields, c ∈ field.toList := by
  induction fields with
  | nil => exact absurd h List.not_mem_nil
  | cons field rest ih =>
    cases rest with
    | nil => exact .inr ⟨field, List.mem_cons_self, h⟩
    | cons next rest =>
      rw [join, String.toList_append, String.toList_append, List.mem_append, List.mem_append] at h
      rcases h with (hfield | hcomma) | hrest
      · exact .inr ⟨field, List.mem_cons_self, hfield⟩
      · exact .inl (List.mem_singleton.mp hcomma)
      · refine (ih hrest).imp id ?_
        rintro ⟨field', hmem, hc⟩
        exact ⟨field', List.mem_cons_of_mem field hmem, hc⟩

theorem newline_not_mem_join {fields : List String} (h : ∀ field ∈ fields, Unquoted field) :
    '\n' ∉ (join fields).toList := by
  intro hmem
  rcases mem_join hmem with hcomma | ⟨field, hfield, hc⟩
  · exact absurd hcomma (by decide)
  · exact (h field hfield).plain _ hc (by decide)

theorem flatMap_eq_intercalate (ls : List (List Char)) :
    ls.flatMap (· ++ ['\n']) = ['\n'].intercalate (ls ++ [[]]) := by
  induction ls with
  | nil => rfl
  | cons l ls ih =>
    rw [List.flatMap_cons, ih]
    cases ls with
    | nil => simp
    | cons next ls =>
      rw [List.cons_append, List.cons_append, List.cons_append, List.intercalate_cons_cons]

theorem lines?_flatMap {ls : List (List Char)} (h : ∀ l ∈ ls, '\n' ∉ l) :
    lines? (ls.flatMap (· ++ ['\n'])) = some ls := by
  have hsplit : (ls.flatMap (· ++ ['\n'])).splitOn '\n' = ls ++ [[]] := by
    rw [flatMap_eq_intercalate]
    apply List.splitOn_intercalate
    · intro l hl
      rcases List.mem_append.mp hl with hl | hl
      · exact h l hl
      · obtain rfl := List.mem_singleton.mp hl
        exact List.not_mem_nil
    · exact List.append_ne_nil_of_right_ne_nil ls (List.cons_ne_nil [] [])
  rw [lines?, hsplit, if_pos List.getLast?_concat, List.dropLast_concat]

/-! ## Records and traces -/

theorem toList_line (fields : List String) :
    (line fields).toList = (join fields).toList ++ ['\n'] := by
  rw [line, String.toList_append]
  rfl

theorem toList_join_line (rows : List (List String)) :
    (String.join (rows.map line)).toList =
      (rows.map fun fields => (join fields).toList).flatMap (· ++ ['\n']) := by
  rw [String.toList_join, List.flatMap_map, List.flatMap_map]
  exact congrArg (List.flatMap · rows) (funext toList_line)

/-- Lines of fields that need no quotation marks are taken apart again. -/
theorem lines?_join_line {rows : List (List String)}
    (h : ∀ fields ∈ rows, ∀ field ∈ fields, Unquoted field) :
    lines? (String.join (rows.map line)).toList =
      some (rows.map fun fields => (join fields).toList) := by
  rw [toList_join_line]
  apply lines?_flatMap
  intro l hl
  obtain ⟨fields, hfields, rfl⟩ := List.mem_map.mp hl
  exact newline_not_mem_join (h fields hfields)

theorem ofLine?_join_fields (e : Entry) : Entry.ofLine? (join e.fields).toList = some e := by
  have hne : e.fields ≠ [] := List.cons_ne_nil _ _
  have hsplit : (join e.fields).toList.splitOn ',' = (toString e.cycle).toList ::
      (Word.hex e.pc).toList :: (toString e.stall).toList ::
      (e.slots.map slotText).map String.toList :=
    splitOn_join hne fun _ => unquoted_of_mem_fields
  have hslots : ((e.slots.map slotText).map String.toList).mapM slot? = some e.slots := by
    rw [List.map_map]
    exact mapM_map_of_inverse fun slot _ => slot?_slotText slot
  simp only [Entry.ofLine?, hsplit, number?_repr, word?_hex, flag?_toString, hslots]
  rfl

/-- **A record is read back.** -/
theorem ofRecord?_record (e : Entry) : Entry.ofRecord? e.record = some e := by
  have hlines : lines? (String.join ([e.fields].map line)).toList =
      some [(join e.fields).toList] := by
    apply lines?_join_line
    intro fields hfields field
    obtain rfl := List.mem_singleton.mp hfields
    exact unquoted_of_mem_fields
  rw [List.map_singleton, String.join_cons, String.join_nil, String.append_empty] at hlines
  rw [Entry.ofRecord?, Entry.record, hlines]
  exact ofLine?_join_fields e

/-- **A trace is read back**, so that no two say the same in different words, and none
says two things. -/
theorem read?_text (entries : List Entry) : read? (text entries) = some entries := by
  have htext : text entries = String.join ((headings :: entries.map Entry.fields).map line) := by
    rw [List.map_cons, String.join_cons, List.map_map]
    rfl
  have hlines : lines? (text entries).toList =
      some ((join headings).toList :: entries.map fun e => (join e.fields).toList) := by
    rw [htext, lines?_join_line, List.map_cons, List.map_map]
    · rfl
    · intro fields hfields field hfield
      rcases List.mem_cons.mp hfields with rfl | hfields
      · exact unquoted_of_mem_headings hfield
      · obtain ⟨e, -, rfl⟩ := List.mem_map.mp hfields
        exact unquoted_of_mem_fields hfield
  rw [read?, hlines]
  simp only [if_true]
  exact mapM_map_of_inverse fun e _ => ofLine?_join_fields e

end Trace

/-! ## Runs that write a trace -/

namespace Run

variable {σ α ε : Type} {step : σ → Except (Breakdown σ) (Option σ)} {watch : Onlooker σ α ε}
  {budget k : Nat} {x : σ} {notes : α}

/-- What an onlooker keeps true of its notes is true of them when the run has ended. -/
theorem notes_go {I : α → Prop} (hI : ∀ j y noted, I noted → I (watch j y noted).1)
    (h : I notes) : I (go step watch budget k x notes).notes := by
  refine go_carries (P := fun _ _ noted => I noted) (Q := fun r => I r.notes) ?_ ?_ ?_ ?_ h
  · exact fun _ _ _ hnoted => hnoted
  · exact fun _ _ _ _ hnoted _ => hnoted
  · exact fun j _ z noted hnoted _ _ => hI (j + 1) z noted hnoted
  · exact fun j _ z noted _ hnoted _ _ => hI (j + 1) z noted hnoted

/-- Only an onlooker who objects ends a run. -/
theorem ending_ne_refused (h : ∀ j y noted, (watch j y noted).2 = none) (e : ε) :
    (go step watch budget k x notes).ending ≠ .refused e := by
  refine go_carries (P := fun _ _ _ => True) (Q := fun r => r.ending ≠ .refused e)
    ?_ ?_ ?_ ?_ trivial
  · intro _ _ _ _ hrefused
    cases hrefused
  · intro _ _ _ _ _ _ hrefused
    cases hrefused
  · exact fun _ _ _ _ _ _ _ => trivial
  · intro j _ z noted e' _ _ hsome
    rw [h] at hsome
    cases hsome

end Run

namespace Simulation

variable {host : Host} {path tracePath : String} {policy : Policy} {sink : Sink} {o : Outcome}
  {s : State}

theorem recorder_of_refusal?_none (hsink : sink.refusal? = none) (cycle : Nat) (m : Machine)
    (written : String) : (Trace.recorder sink cycle m written).2 = none := by
  dsimp only [Trace.recorder]
  rw [hsink, ite_self]

/-- What is recorded of the calls of an onlooker. -/
def entriesOf (log : List (Run.Call Machine FileError)) : List Trace.Entry :=
  log.map fun c => .of c.number c.state

/-- The trace of a run says what the machine was like after each cycle. -/
theorem exists_entries (policy : Policy) (sink : Sink) (s : State) :
    ∃ entries, (tracedRun policy sink s).notes = Trace.text entries ∧
      entries.length = (tracedRun policy sink s).steps ∧
      ∀ k < entries.length, ∃ m, (Machine.start s).after (k + 1) = .ok m ∧
        entries[k]? = some (.of (k + 1) m) := by
  have hobserved := Machine.observed_runWith (.start s) (Trace.recorder sink) policy.maxCycles
    Trace.header
  have hlogging : tracedRun policy sink s = _ := Run.go_logging [] Trace.header
  have hnotes : (tracedRun policy sink s).notes = Trace.text (entriesOf
      ((Machine.start s).runWith (Run.logging (Trace.recorder sink)) policy.maxCycles
        ([], Trace.header)).notes.1) := by
    rw [hlogging]
    -- the text says what is in the log: with each call more, and before the first
    refine Run.notes_go (I := fun noted : List (Run.Call Machine FileError) × String =>
      noted.2 = Trace.text (entriesOf noted.1)) ?_ ?_
    · rintro cycle m ⟨log, written⟩ htext
      dsimp only at htext
      dsimp only [Run.logging, Trace.recorder]
      rw [htext, Trace.text_append_record, entriesOf, entriesOf, List.map_append]
      rfl
    · exact (String.append_empty).symm
  refine ⟨_, hnotes, ?_, fun k hk => ?_⟩
  · rw [entriesOf, List.length_map, hobserved.length, hlogging]
    rfl
  · rw [entriesOf, List.length_map, hobserved.length] at hk
    obtain ⟨m, hm, hcall⟩ := hobserved.call k hk
    refine ⟨m, hm, ?_⟩
    rw [entriesOf, List.getElem?_map, hcall]
    rfl

/-- **A trace tells the history of its run.** A run of the pipeline that succeeds without a
trace comes to the same with one, if nothing that is written is refused. The trace is the
header and one record a cycle, in none of which a field needs quotation marks. What the
record of a cycle says is read back from it: the number of the cycle, the program counter,
the stall flag and the address in each slot, as they are in the machine after so many
cycles. And all of this is read back from the trace as a whole. -/
theorem trace_tells_history (hb : policy.backend = .pipelined)
    (hrun : run host path policy none = (.ok o, none))
    (hcreate : host.create tracePath = .ok sink) (hsink : sink.refusal? = none) :
    ∃ s entries, prepare host path policy = .ok s ∧
      run host path policy (some tracePath) =
        (.ok o, some (Trace.header ++ String.join (entries.map Trace.Entry.record))) ∧
      entries.length = o.cycles ∧
      (∀ e ∈ entries, Trace.Entry.ofRecord? e.record = some e ∧
        ∀ field ∈ e.fields, Trace.Unquoted field) ∧
      (∀ k, 1 ≤ k → k ≤ o.cycles → ∃ m, (Machine.start s).after k = .ok m ∧
        entries[k - 1]? = some ⟨k, m.cpu.pc, m.cpu.stall, m.slots.occupancy⟩) ∧
      Trace.read? (Trace.header ++ String.join (entries.map Trace.Entry.record)) =
        some entries := by
  obtain ⟨s, hprepare, hexecute⟩ := prepare_of_run hrun
  rw [execute, hb] at hexecute
  obtain ⟨hcomplete, ho⟩ := conclude_eq_ok_iff.mp hexecute
  have hquiet (e : FileError) : (tracedRun policy sink s).ending ≠ .refused e :=
    Run.ending_ne_refused (recorder_of_refusal?_none hsink) e
  obtain ⟨hstate, hsteps, hending⟩ := Run.go_unobserved Trace.header hquiet
  have htraced : concludeTraced sink (tracedRun policy sink s) = .ok o := by
    refine concludeTraced_eq_ok_iff.mpr ⟨hsink, conclude_eq_ok_iff.mpr ⟨?_, ?_⟩⟩
    · exact hending.trans (congrArg Ending.ofUnobserved hcomplete)
    · rw [ho]
      exact (congrArg₂ pipelinedOutcome hstate hsteps).symm
  obtain ⟨entries, hnotes, hlength, hentries⟩ := exists_entries policy sink s
  have hcycles : entries.length = o.cycles := by
    rw [hlength, ho]
    exact hsteps
  refine ⟨s, entries, hprepare, ?_, hcycles, fun e _ => ⟨Trace.ofRecord?_record e, ?_⟩, ?_,
    Trace.read?_text entries⟩
  · simp only [run, hprepare, hb, hcreate, htraced, hnotes]
    rfl
  · exact fun field => Trace.unquoted_of_mem_fields
  · intro k hk hle
    obtain ⟨m, hm, hentry⟩ := hentries (k - 1) (by omega)
    rw [Nat.sub_add_cancel hk] at hm hentry
    exact ⟨m, hm, hentry⟩

/-- One instruction, six cycles, and a record of each: in the first it is fetched. -/
theorem trace_tells_history_of_addHost :
    ∃ o entries text, run addHost "add" ⟨.pipelined, 4, 6⟩ none = (.ok o, none) ∧
      run addHost "add" ⟨.pipelined, 4, 6⟩ (some "trace") = (.ok o, some text) ∧
      Trace.read? text = some entries ∧ entries.length = 6 ∧
      entries[0]? = some ⟨1, 4, false, [some 0, none, none, none, none]⟩ := by
  have hsix : (run addHost "add" ⟨.pipelined, 4, 6⟩ none).1.toOption.any (·.cycles == 6) = true := by
    decide
  obtain ⟨o, hrun, ho⟩ := exists_outcome hsix
  have hcycles : o.cycles = 6 := beq_iff_eq.mp ho
  obtain ⟨s, entries, hprepare, htraced, hlength, -, hhistory, hread⟩ :=
    trace_tells_history rfl hrun (show addHost.create "trace" = .ok .file from rfl) rfl
  obtain ⟨m, hm, hfirst⟩ := hhistory 1 (by decide) (by omega)
  have hfetched : ((prepare addHost "add" ⟨.pipelined, 4, 6⟩).toOption.bind fun s =>
      ((Machine.start s).after 1).toOption.map (Trace.Entry.of 1)) =
        some ⟨1, 4, false, [some 0, none, none, none, none]⟩ := by
    decide
  simp only [hprepare, hm, Except.toOption, Option.bind_some, Option.map_some] at hfetched
  exact ⟨o, entries, _, hrun, htraced, hread, hlength.trans hcycles, hfirst.trans hfetched⟩

/-- Two cycles. -/
example : (run addHost "add" ⟨.pipelined, 4, 2⟩ (some "trace")).2 =
    some ("cycle,pc,stall,IF,ID,EX,MEM,WB\n" ++
      "1,0x00000004,false,0x00000000,-,-,-,-\n" ++
      "2,0x00000004,false,-,0x00000000,-,-,-\n") := by
  decide

end Simulation

end FiveStage
