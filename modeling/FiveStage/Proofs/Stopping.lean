import Mathlib.Order.Bounds.Defs
import FiveStage.Proofs.Finishing
import FiveStage.Proofs.Straying

/-
  Stopping — where a run stops, and what its onlooker is told

  A run makes one step after the other until nothing is left to do or its budget is
  spent, and neither depends on how the budget is handed out. So a run of `n` and then
  of `k` is a run of `n + k`, wherever the first one happens to stop, in the middle of a
  stall as well as in the last cycles. An onlooker is told each step once, with its
  number and the state that it has led to; the first objection ends the run.

  To say what an onlooker is told, it is made to keep a log of its calls (`logging`),
  which changes nothing else.

  What is proved:
    1. `Run.go_isLeast` — a run that no step breaks off makes steps up to the first state
       with nothing to do, or as many as its budget.
    2. `Run.go_add_from` — a run split in two.
    3. `Run.go_carries` — what every step keeps, for a run with an onlooker.
    4. `Run.observed_go`, `Run.go_logging`, `Run.go_unobserved` — the calls of an
       onlooker, that logging them changes nothing, and that an onlooker without an
       objection changes nothing either.
    5. `runs_stop_and_compose` — all this of both ways of executing a program.
-/

namespace FiveStage

def Ending.objection? {ε : Type} : Ending ε → Option ε
  | .refused e => some e
  | .complete | .fault _ => none

theorem Ending.objection?_eq_some_iff {ε : Type} {ending : Ending ε} {e : ε} :
    ending.objection? = some e ↔ ending = .refused e := by
  cases ending <;> simp [objection?]

/-- An ending without an objection, as the ending of an observed run. -/
def Ending.ofUnobserved {ε : Type} : Ending Empty → Ending ε
  | .complete => .complete
  | .fault f => .fault f

namespace Run

variable {σ α ε : Type} {step : σ → Except (Breakdown σ) (Option σ)} {budget k : Nat} {x : σ}

/-! ## Where a run stops -/

/-- A run whose states are numbered by `P`, of which no step is refused within the
budget: it is complete, and every state it has left had something to do. -/
theorem go_stops (P : Nat → σ → Prop)
    (hstep : ∀ j y, j < k + budget → P j y → ∃ o, step y = .ok o ∧ ∀ z, o = some z → P (j + 1) z)
    (hx : P k x) :
    (go step (nobody σ) budget k x ()).ending = .complete ∧
      P (go step (nobody σ) budget k x ()).steps (go step (nobody σ) budget k x ()).state ∧
      (go step (nobody σ) budget k x ()).steps ≤ k + budget ∧
      ∀ j, k ≤ j → j < (go step (nobody σ) budget k x ()).steps →
        ∃ y z, P j y ∧ step y = .ok (some z) := by
  induction budget generalizing k x with
  | zero =>
    refine ⟨rfl, hx, Nat.le_refl _, fun j hk hj => ?_⟩
    exact absurd hj (Nat.not_lt_of_le hk)
  | succ budget ih =>
    obtain ⟨o, ho, hnext⟩ := hstep k x (by omega) hx
    cases o with
    | none =>
      rw [go_of_none ho]
      refine ⟨rfl, hx, Nat.le_add_right _ _, fun j hk hj => ?_⟩
      exact absurd hj (Nat.not_lt_of_le hk)
    | some y =>
      have hgo : go step (nobody σ) (budget + 1) k x () = go step (nobody σ) budget (k + 1) y () := by
        simp only [go, ho, nobody]
      rw [hgo]
      obtain ⟨hc, hP, hle, hbusy⟩ :=
        ih (fun j z hj => hstep j z (by omega)) (hnext y rfl)
      refine ⟨hc, hP, by omega, fun j hk hj => ?_⟩
      rcases Nat.eq_or_lt_of_le hk with rfl | hlt
      · exact ⟨x, y, hx, ho⟩
      · exact hbusy j hlt hj

/-- Such a run stops at the first state with nothing to do, or when its budget is spent. -/
theorem go_isLeast (P : Nat → σ → Prop) (idle : Nat → Prop)
    (hstep : ∀ j y, j < budget → P j y → ∃ o, step y = .ok o ∧ ∀ z, o = some z → P (j + 1) z)
    (hidle : ∀ j y, P j y → step y = .ok none → idle j)
    (hbusy : ∀ j y z, P j y → step y = .ok (some z) → ¬idle j) (hx : P 0 x) :
    (go step (nobody σ) budget 0 x ()).ending = .complete ∧
      P (go step (nobody σ) budget 0 x ()).steps (go step (nobody σ) budget 0 x ()).state ∧
      IsLeast {j | j ≤ budget ∧ (j = budget ∨ idle j)} (go step (nobody σ) budget 0 x ()).steps := by
  rw [← Nat.zero_add budget] at hstep
  obtain ⟨hc, hP, hle, hmade⟩ := go_stops P hstep hx
  have hspent := steps_go hc
  rw [Nat.zero_add] at hle hspent
  refine ⟨hc, hP, ⟨hle, hspent.imp id (hidle _ _ hP)⟩, ?_⟩
  rintro j ⟨-, rfl | hj⟩
  · exact hle
  · apply Nat.le_of_not_lt
    intro hlt
    -- the run has gone on from there, so something was left to do
    obtain ⟨y, z, hy, hz⟩ := hmade j (Nat.zero_le j) hlt
    exact hbusy j y z hy hz hj

theorem go_from (budget i k : Nat) (x : σ) :
    go step (nobody σ) budget (i + k) x () =
      ⟨(go step (nobody σ) budget k x ()).state, i + (go step (nobody σ) budget k x ()).steps, (),
        (go step (nobody σ) budget k x ()).ending⟩ := by
  induction budget generalizing k x with
  | zero => rfl
  | succ budget ih =>
    cases hs : step x with
    | error b => simp only [go, hs]
    | ok o =>
      cases o with
      | none => simp only [go, hs]
      | some y =>
        simp only [go, hs, nobody]
        exact ih (k + 1) y

/-- A run split in two: the second part starts where the first has stopped, and the
steps of both count. -/
theorem go_add_from (hc : (go step (nobody σ) budget 0 x ()).ending = .complete) (more : Nat) :
    go step (nobody σ) (budget + more) 0 x () =
      ⟨(go step (nobody σ) more 0 (go step (nobody σ) budget 0 x ()).state ()).state,
        (go step (nobody σ) budget 0 x ()).steps +
          (go step (nobody σ) more 0 (go step (nobody σ) budget 0 x ()).state ()).steps, (),
        (go step (nobody σ) more 0 (go step (nobody σ) budget 0 x ()).state ()).ending⟩ := by
  rw [go_add hc]
  exact go_from more _ 0 _

/-- If no step faults within both budgets, neither part is broken off. -/
theorem go_split {more : Nat} (hn : (go step (nobody σ) budget 0 x ()).ending = .complete)
    (hall : (go step (nobody σ) (budget + more) 0 x ()).ending = .complete) :
    (go step (nobody σ) more 0 (go step (nobody σ) budget 0 x ()).state ()).ending = .complete ∧
      go step (nobody σ) (budget + more) 0 x () =
        ⟨(go step (nobody σ) more 0 (go step (nobody σ) budget 0 x ()).state ()).state,
          (go step (nobody σ) budget 0 x ()).steps +
            (go step (nobody σ) more 0 (go step (nobody σ) budget 0 x ()).state ()).steps, (),
          .complete⟩ := by
  have hadd := go_add_from hn more
  have hc : (go step (nobody σ) more 0 (go step (nobody σ) budget 0 x ()).state ()).ending =
      .complete := (congrArg Run.ending hadd).symm.trans hall
  rw [hc] at hadd
  exact ⟨hc, hadd⟩

/-! ## What an onlooker is told -/

/-- What holds at every step of a run tells what the run has come to: `P` of the number of
steps, the state and the notes is kept by a step to which the onlooker does not object,
and gives `Q` wherever the run ends. -/
theorem go_carries {watch : Onlooker σ α ε} {notes : α} {P : Nat → σ → α → Prop}
    {Q : Run σ α ε → Prop} (hcomplete : ∀ j y noted, P j y noted → Q ⟨y, j, noted, .complete⟩)
    (hfault : ∀ j y noted b, P j y noted → step y = .error b →
      Q ⟨b.state, j, noted, .fault b.fault⟩)
    (hnext : ∀ j y z noted, P j y noted → step y = .ok (some z) →
      (watch (j + 1) z noted).2 = none → P (j + 1) z (watch (j + 1) z noted).1)
    (hobject : ∀ j y z noted e, P j y noted → step y = .ok (some z) →
      (watch (j + 1) z noted).2 = some e →
        Q ⟨z, j + 1, (watch (j + 1) z noted).1, .refused e⟩)
    (h : P k x notes) : Q (go step watch budget k x notes) := by
  induction budget generalizing k x notes with
  | zero => exact hcomplete k x notes h
  | succ budget ih =>
    unfold go
    cases hs : step x with
    | error b => exact hfault k x notes b h hs
    | ok o =>
      cases o with
      | none => exact hcomplete k x notes h
      | some y =>
        have hkeep := hnext k x y notes h hs
        have hstop := hobject k x y notes
        dsimp only
        cases hw : watch (k + 1) y notes with
        | mk noted answer =>
          rw [hw] at hkeep hstop
          cases answer with
          | none => exact ih (hkeep rfl)
          | some e => exact hstop e h hs rfl

/-- One call of an onlooker, and its answer. -/
structure Call (σ ε : Type) where
  number : Nat
  state : σ
  answer : Option ε

/-- The onlooker that does the same and keeps a log of its calls. -/
def logging (watch : Onlooker σ α ε) : Onlooker σ (List (Call σ ε) × α) ε :=
  fun number x (log, notes) =>
    ((log ++ [⟨number, x, (watch number x notes).2⟩], (watch number x notes).1),
      (watch number x notes).2)

/-- The log of a run whose states are numbered by `P`: one call for each step, numbered
from 1, with the state that the step has led to. Only the last call can have been
answered by an objection, which is then the ending of the run. -/
structure Observed (P : Nat → σ → Prop) (r : Run σ (List (Call σ ε) × α) ε) : Prop where
  state : (∀ f, r.ending ≠ .fault f) → P r.steps r.state
  length : r.notes.1.length = r.steps
  call : ∀ i, i < r.steps → ∃ y, P (i + 1) y ∧
    r.notes.1[i]? = some ⟨i + 1, y, if i + 1 = r.steps then r.ending.objection? else none⟩
  objection : ∀ e, r.ending = .refused e → 0 < r.steps

theorem Observed.of_answer {P : Nat → σ → Prop} {r : Run σ (List (Call σ ε) × α) ε}
    (h : Observed P r) {c : Call σ ε} (hc : c ∈ r.notes.1) {e : ε} (he : c.answer = some e) :
    r.ending = .refused e ∧ r.steps = c.number := by
  obtain ⟨i, hi⟩ := List.getElem?_of_mem hc
  have hlt : i < r.steps := by
    rw [← h.length]
    exact (List.getElem?_eq_some_iff.mp hi).1
  obtain ⟨y, -, hcall⟩ := h.call i hlt
  obtain rfl := Option.some.inj (hi.symm.trans hcall)
  dsimp only at he ⊢
  split at he
  · rename_i hlast
    exact ⟨Ending.objection?_eq_some_iff.mp he, hlast.symm⟩
  · exact absurd he nofun

variable {watch : Onlooker σ α ε}

/-- A log of calls that have been answered without an objection. -/
def Quiet (P : Nat → σ → Prop) (k : Nat) (log : List (Call σ ε)) : Prop :=
  log.length = k ∧ ∀ i, i < k → ∃ y, P (i + 1) y ∧ log[i]? = some ⟨i + 1, y, none⟩

/-- The next call, whatever its answer, is the last one in the log. -/
theorem Quiet.call_append {P : Nat → σ → Prop} {log : List (Call σ ε)} (h : Quiet P k log)
    {y : σ} (hy : P (k + 1) y) (answer : Option ε) {i : Nat} (hi : i < k + 1) :
    ∃ z, P (i + 1) z ∧ (log ++ [⟨k + 1, y, answer⟩])[i]? =
      some ⟨i + 1, z, if i + 1 = k + 1 then answer else none⟩ := by
  obtain ⟨hlen, hlog⟩ := h
  rcases Nat.eq_or_lt_of_le (Nat.le_of_lt_succ hi) with rfl | hlt
  · refine ⟨y, hy, ?_⟩
    rw [List.getElem?_append_right (by omega), hlen, Nat.sub_self, if_pos rfl]
    rfl
  · obtain ⟨z, hz, hcall⟩ := hlog i hlt
    refine ⟨z, hz, ?_⟩
    rw [List.getElem?_append_left (by omega), hcall, if_neg (by omega)]

theorem Quiet.append {P : Nat → σ → Prop} {log : List (Call σ ε)} (h : Quiet P k log) {y : σ}
    (hy : P (k + 1) y) : Quiet P (k + 1) (log ++ [⟨k + 1, y, none⟩]) := by
  refine ⟨by rw [List.length_append, h.1, List.length_singleton], fun i hi => ?_⟩
  obtain ⟨z, hz, hcall⟩ := h.call_append hy none hi
  exact ⟨z, hz, by rw [hcall, ite_self]⟩

theorem Quiet.observed {P : Nat → σ → Prop} {log : List (Call σ ε)} (h : Quiet P k log)
    {y : σ} {notes : α} {ending : Ending ε} (hy : (∀ f, ending ≠ .fault f) → P k y)
    (hq : ending.objection? = none) : Observed P ⟨y, k, (log, notes), ending⟩ where
  state := hy
  length := h.1
  call := by
    intro i hi
    obtain ⟨z, hz, hcall⟩ := h.2 i hi
    exact ⟨z, hz, by rw [hcall, hq, ite_self]⟩
  objection := by
    rintro e rfl
    exact absurd hq nofun

theorem observed_go (P : Nat → σ → Prop)
    (hstep : ∀ j y z, P j y → step y = .ok (some z) → P (j + 1) z) {log : List (Call σ ε)}
    {notes : α} (hx : P k x) (hlog : Quiet P k log) :
    Observed P (go step (logging watch) budget k x (log, notes)) := by
  refine go_carries (P := fun j y noted => P j y ∧ Quiet P j noted.1) ?_ ?_ ?_ ?_ ⟨hx, hlog⟩
  · rintro j y noted ⟨hy, hquiet⟩
    exact hquiet.observed (fun _ => hy) rfl
  · rintro j y noted b ⟨-, hquiet⟩ -
    exact hquiet.observed (fun hf => absurd rfl (hf b.fault)) rfl
  · rintro j y z noted ⟨hy, hquiet⟩ hs hnone
    have hz := hstep j y z hy hs
    refine ⟨hz, ?_⟩
    dsimp only [logging] at hnone ⊢
    rw [hnone]
    exact hquiet.append hz
  · rintro j y z noted e ⟨hy, hquiet⟩ hs hsome
    have hz := hstep j y z hy hs
    dsimp only [logging] at hsome ⊢
    rw [hsome]
    exact
      { state := fun _ => hz
        length := by simp [hquiet.1]
        call := fun i hi => hquiet.call_append hz (some e) hi
        objection := fun _ _ => Nat.succ_pos j }

/-- Keeping a log changes nothing else. -/
theorem go_logging (log : List (Call σ ε)) (notes : α) :
    go step watch budget k x notes =
      ⟨(go step (logging watch) budget k x (log, notes)).state,
        (go step (logging watch) budget k x (log, notes)).steps,
        (go step (logging watch) budget k x (log, notes)).notes.2,
        (go step (logging watch) budget k x (log, notes)).ending⟩ := by
  induction budget generalizing k x log notes with
  | zero => rfl
  | succ budget ih =>
    unfold go
    cases hs : step x with
    | error b => rfl
    | ok o =>
      cases o with
      | none => rfl
      | some y =>
        dsimp only [logging]
        cases hw : watch (k + 1) y notes with
        | mk noted answer =>
          cases answer with
          | none => exact ih _ _
          | some e => rfl

/-- An onlooker that does not object changes nothing. -/
theorem go_unobserved (notes : α)
    (h : ∀ e, (go step watch budget k x notes).ending ≠ .refused e) :
    (go step watch budget k x notes).state = (go step (nobody σ) budget k x ()).state ∧
      (go step watch budget k x notes).steps = (go step (nobody σ) budget k x ()).steps ∧
      (go step watch budget k x notes).ending =
        (go step (nobody σ) budget k x ()).ending.ofUnobserved := by
  induction budget generalizing k x notes with
  | zero => exact ⟨rfl, rfl, rfl⟩
  | succ budget ih =>
    unfold go at h ⊢
    cases hs : step x with
    | error b => exact ⟨rfl, rfl, rfl⟩
    | ok o =>
      cases o with
      | none => exact ⟨rfl, rfl, rfl⟩
      | some y =>
        rw [hs] at h
        dsimp only [nobody] at h ⊢
        cases hw : watch (k + 1) y notes with
        | mk noted answer =>
          rw [hw] at h
          cases answer with
          | none => exact ih noted h
          | some e => exact absurd rfl (h e)

end Run

/-! ## Machines -/

namespace Machine

variable {m y : Machine} {n j : Nat}

/-- No cycle faults of the first `n` that the machine makes while it is not idle. -/
def RunsThrough (m : Machine) (n : Nat) : Prop :=
  ∀ j y, j < n → m.after j = .ok y → y.isIdle = false → ∃ z, y.step = .ok z

def IdleAfter (m : Machine) (j : Nat) : Prop := ∃ y, m.after j = .ok y ∧ y.isIdle = true

theorem RunsThrough.mono (h : m.RunsThrough n) (hj : j ≤ n) : m.RunsThrough j :=
  fun i y hi => h i y (Nat.lt_of_lt_of_le hi hj)

theorem runsThrough_of_after (h : ∀ j, ∃ y, m.after j = .ok y) (n : Nat) : m.RunsThrough n := by
  intro j y _ hy _
  obtain ⟨z, hz⟩ := h (j + 1)
  exact ⟨z, (after_succ hy).symm.trans hz⟩

theorem stepUnlessIdle_of_not_idle (hi : y.isIdle = false) {z : Machine} (hs : y.step = .ok z) :
    y.stepUnlessIdle = .ok (some z) := by
  rw [stepUnlessIdle, hi, hs]
  rfl

theorem step_of_stepUnlessIdle {z : Machine} (h : y.stepUnlessIdle = .ok (some z)) :
    y.isIdle = false ∧ y.step = .ok z := by
  unfold stepUnlessIdle at h
  cases hi : y.isIdle with
  | true => simp [hi] at h
  | false =>
    cases hs : y.step with
    | error b => simp [hi, hs, Except.map] at h
    | ok z' =>
      rw [hi, hs] at h
      obtain rfl := Option.some.inj (Except.ok.inj h)
      exact ⟨rfl, rfl⟩

theorem after_of_stepUnlessIdle {z : Machine} (hy : m.after j = .ok y)
    (h : y.stepUnlessIdle = .ok (some z)) : m.after (j + 1) = .ok z := by
  rw [after_succ hy]
  exact (step_of_stepUnlessIdle h).2

theorem observed_runWith {α ε : Type} (m : Machine) (watch : Onlooker Machine α ε) (n : Nat)
    (notes : α) :
    Run.Observed (fun j y => m.after j = .ok y) (m.runWith (Run.logging watch) n ([], notes)) := by
  have hzero : m.after 0 = .ok m := rfl
  exact Run.observed_go (fun j y => m.after j = .ok y) (fun _ _ _ => after_of_stepUnlessIdle) hzero
    ⟨rfl, fun i hi => absurd hi (Nat.not_lt_zero i)⟩

/-- A run stops where the machine is idle for the first time, or when its budget is
spent. -/
theorem run_stops (h : m.RunsThrough n) :
    (m.run n).ending = .complete ∧ m.after (m.run n).steps = .ok (m.run n).state ∧
      IsLeast {j | j ≤ n ∧ (j = n ∨ m.IdleAfter j)} (m.run n).steps := by
  have hzero : m.after 0 = .ok m := rfl
  refine Run.go_isLeast (fun j y => m.after j = .ok y) m.IdleAfter ?_ ?_ ?_ hzero
  · intro j y hj hy
    cases hi : y.isIdle with
    | true => exact ⟨none, stepUnlessIdle_eq_none_iff.mpr hi, fun z hz => by cases hz⟩
    | false =>
      obtain ⟨z, hz⟩ := h j y hj hy hi
      refine ⟨some z, stepUnlessIdle_of_not_idle hi hz, ?_⟩
      rintro _ ⟨⟩
      rw [after_succ hy, hz]
  · exact fun j y hy hnone => ⟨y, hy, stepUnlessIdle_eq_none_iff.mp hnone⟩
  · rintro j y z hy hz ⟨y', hy', hi⟩
    obtain rfl := Except.ok.inj (hy.symm.trans hy')
    rw [(step_of_stepUnlessIdle hz).1] at hi
    exact Bool.false_ne_true hi

end Machine

/-! ## Sequential execution -/

namespace Sequential

variable {s : State} {n j : Nat}

def RunsThrough (s : State) (n : Nat) : Prop := ∀ j, j < n → ∃ o, step (stateAt s j) = .ok o

theorem RunsThrough.mono (h : RunsThrough s n) (hj : j ≤ n) : RunsThrough s j :=
  fun i hi => h i (Nat.lt_of_lt_of_le hi hj)

/-- A run stops at the first zero word, or when its budget is spent. -/
theorem run_stops (h : RunsThrough s n) :
    (run n s).ending = .complete ∧ (run n s).state = stateAt s (run n s).steps ∧
      IsLeast {j | j ≤ n ∧ (j = n ∨ (stateAt s j).word = 0)} (run n s).steps := by
  have hzero : s = stateAt s 0 := rfl
  refine Run.go_isLeast (fun j y => y = stateAt s j) (fun j => (stateAt s j).word = 0)
    ?_ ?_ ?_ hzero
  · rintro j _ hj rfl
    obtain ⟨o, ho⟩ := h j hj
    refine ⟨o, ho, ?_⟩
    rintro z rfl
    exact (next_of_step ho).symm
  · rintro j _ rfl hnone
    exact (word_eq_zero_iff hnone).mpr rfl
  · rintro j _ z rfl hz h0
    exact Option.some_ne_none z ((word_eq_zero_iff hz).mp h0)

end Sequential

open FiveStage.Sequential

/-! ## Both -/

/-- **Runs stop where nothing is left, and compose.** If no cycle faults on the way, a run
of the pipeline makes just as many as lead to the first idle machine, or its budget; a
run of `n` and one of `k` behind it are one of `n + k`; and an idle machine that stands in
memory stays as it is. The same is true of sequential execution, which stops at the
first zero word. An onlooker of the pipeline is called once for every cycle, with its
number and the machine after it. If it objects, that is the last call and the ending of
the run; if it does not, the run is the same as without it. -/
theorem runs_stop_and_compose {α ε : Type} (m : Machine) (s : State)
    (watch : Onlooker Machine α ε) (notes : α) (n k : Nat) :
    (m.RunsThrough n →
      (m.run n).ending = .complete ∧ m.after (m.run n).steps = .ok (m.run n).state ∧
        IsLeast {j | j ≤ n ∧ (j = n ∨ m.IdleAfter j)} (m.run n).steps) ∧
    (m.RunsThrough (n + k) →
      ((m.run n).state.run k).ending = .complete ∧
        m.run (n + k) = ⟨((m.run n).state.run k).state,
          (m.run n).steps + ((m.run n).state.run k).steps, (), .complete⟩) ∧
    (m.isIdle = true → m.mem.Holds m.cpu.pc → m.step = .ok m) ∧
    (Sequential.RunsThrough s n →
      (Sequential.run n s).ending = .complete ∧
        (Sequential.run n s).state = Sequential.stateAt s (Sequential.run n s).steps ∧
        IsLeast {j | j ≤ n ∧ (j = n ∨ (Sequential.stateAt s j).word = 0)}
          (Sequential.run n s).steps) ∧
    (Sequential.RunsThrough s (n + k) →
      (Sequential.run k (Sequential.run n s).state).ending = .complete ∧
        Sequential.run (n + k) s = ⟨(Sequential.run k (Sequential.run n s).state).state,
          (Sequential.run n s).steps + (Sequential.run k (Sequential.run n s).state).steps, (),
          .complete⟩) ∧
    ∃ r, m.runWith (Run.logging watch) n ([], notes) = r ∧
      m.runWith watch n notes = ⟨r.state, r.steps, r.notes.2, r.ending⟩ ∧
      Run.Observed (fun j y => m.after j = .ok y) r ∧
      (∀ c ∈ r.notes.1, ∀ e, c.answer = some e → r.ending = .refused e ∧ r.steps = c.number) ∧
      ((∀ e, r.ending ≠ .refused e) →
        r.state = (m.run n).state ∧ r.steps = (m.run n).steps ∧
          r.ending = (m.run n).ending.ofUnobserved) := by
  refine ⟨Machine.run_stops, fun h => ?_, Machine.step_of_isIdle, Sequential.run_stops,
    fun h => ?_, _, rfl, ?_, ?_, ?_, ?_⟩
  · exact Run.go_split (Machine.run_stops (h.mono (Nat.le_add_right n k))).1
      (Machine.run_stops h).1
  · exact Run.go_split (Sequential.run_stops (h.mono (Nat.le_add_right n k))).1
      (Sequential.run_stops h).1
  · exact Run.go_logging [] notes
  · exact m.observed_runWith watch n notes
  · intro c hc e he
    exact (m.observed_runWith watch n notes).of_answer hc he
  · intro hquiet
    exact Run.go_unobserved _ hquiet

def untilThird (σ : Type) : Onlooker σ Unit Nat :=
  fun j _ _ => ((), if j = 3 then some j else none)

/-- The runs of a program that ends, cut where an instruction waits for a load, and
observed by one who objects on the way; and a machine without a program. -/
theorem runs_compose_on_detour :
    (Machine.start detour).RunsThrough (3 + 20) ∧ Sequential.RunsThrough detour (2 + 20) ∧
      (Machine.start detour).run (3 + 20) =
        ⟨(((Machine.start detour).run 3).state.run 20).state,
          ((Machine.start detour).run 3).steps +
            (((Machine.start detour).run 3).state.run 20).steps, (), .complete⟩ ∧
      IsLeast {j | j ≤ 2 + 20 ∧ (j = 2 + 20 ∨ (stateAt detour j).word = 0)}
        (Sequential.run (2 + 20) detour).steps ∧
      (∃ m, (Machine.start detour).after 3 = .ok m ∧
        (Machine.start detour).runWith (untilThird Machine) 23 () = ⟨m, 3, (), .refused 3⟩) ∧
      (Machine.start ⟨.reset, Memory.zeroed 1⟩).step = .ok (.start ⟨.reset, Memory.zeroed 1⟩) := by
  have hf := haltsAfter_detour.neverFaults
  have hmachine (n : Nat) : (Machine.start detour).RunsThrough n := by
    refine Machine.runsThrough_of_after (fun j => ?_) n
    obtain ⟨m, hm, -⟩ := exists_inStep rfl hf fetchesSettled_detour transfersInside_detour j
    exact ⟨m, hm⟩
  have hseq (n : Nat) : Sequential.RunsThrough detour n := fun j _ => hf j
  have hcut := (runs_stop_and_compose (.start detour) detour (Run.nobody Machine) () 3 20).2.1
  have hleast := (runs_stop_and_compose (.start detour) detour (Run.nobody Machine) ()
    (2 + 20) 0).2.2.2.1
  obtain ⟨-, -, -, -, -, r, hr, hwatch, hlog, -, -⟩ :=
    runs_stop_and_compose (.start detour) detour (untilThird Machine) () 23 0
  have hidle := (runs_stop_and_compose (.start ⟨.reset, Memory.zeroed 1⟩) detour
    (Run.nobody Machine) () 0 0).2.2.1
  refine ⟨hmachine _, hseq _, (hcut (hmachine _)).2, (hleast (hseq _)).2.2, ?_,
    hidle (by decide) (by decide)⟩
  have hsteps : r.steps = 3 := by
    rw [← hr]
    decide
  have hending : r.ending = .refused 3 := by
    rw [← hr]
    decide
  refine ⟨r.state, ?_, ?_⟩
  · rw [← hsteps]
    exact hlog.state (by rw [hending]; exact fun _ => nofun)
  · rw [hwatch, hsteps, hending]

end FiveStage
