import FiveStage.Elf.Load
import FiveStage.Proofs.Widening

/-
  Loading — a program is laid into a larger memory as into a smaller one

  A loader writes words or bytes one after the other and stops where memory refuses
  one. If a memory has taken them all, a larger one takes them as well, and holds
  the same words with nothing behind them. Two memories of fixed capacities that
  stand in this relation are `Resized`.

  What is proved:
    1. `Resized.write`, `Resized.writeByte` — one write keeps the relation.
    2. `loadBytes_of_resized` — so does a raw image that is loaded to its end.
    3. `load_of_resized` — so does an executable.
-/

namespace FiveStage

namespace Memory

/-- The same words in two capacities, the rest of the larger one zero. -/
structure Resized (small large : Nat) (mem wide : Memory) : Prop where
  same : mem.Extends wide
  small : mem.capacity = small
  large : wide.capacity = large

theorem resized_zeroed {small large : Nat} (h : small ≤ large) :
    Resized small large (zeroed small) (zeroed large) :=
  { same := { capacity := h, cell := fun i => by rw [cell_zeroed, cell_zeroed] }
    small := rfl
    large := rfl }

namespace Resized

variable {small large : Nat} {mem wide mem' : Memory} {address v w : Word}

theorem read (h : Resized small large mem wide) (hr : mem.read address = .ok w) :
    wide.read address = .ok w := by
  by_cases hin : mem.Holds address
  · rw [read_of_holds hin] at hr
    rw [read_of_holds (h.same.holds hin), h.same.cell]
    exact hr
  · rw [read_of_not_holds hin] at hr
    exact absurd hr nofun

theorem write (h : Resized small large mem wide) (hw : mem.write address v = .ok mem') :
    ∃ wide', wide.write address v = .ok wide' ∧ Resized small large mem' wide' := by
  by_cases hin : mem.Holds address
  · have hin' := h.same.holds hin
    rw [write_of_holds hin] at hw
    obtain rfl := Except.ok.inj hw
    exact ⟨_, write_of_holds hin' v, h.same.set v hin hin', h.small, h.large⟩
  · rw [write_of_not_holds hin] at hw
    exact absurd hw nofun

theorem writeByte {b : Byte} (h : Resized small large mem wide)
    (hw : mem.writeByte address b = .ok mem') :
    ∃ wide', wide.writeByte address b = .ok wide' ∧ Resized small large mem' wide' := by
  unfold Memory.writeByte at hw ⊢
  cases hr : mem.read address with
  | error e => simp [hr, bind, Except.bind] at hw
  | ok w =>
    rw [hr] at hw
    rw [h.read hr]
    exact h.write hw

theorem writeBytes (h : Resized small large mem wide) {count : Nat} {bs : List Byte}
    (hw : mem.writeBytes count address bs = (mem', none)) :
    ∃ wide', wide.writeBytes count address bs = (wide', none) ∧ Resized small large mem' wide' := by
  induction count generalizing mem wide address bs with
  | zero =>
    obtain ⟨rfl, -⟩ := Prod.mk.inj hw
    exact ⟨wide, rfl, h⟩
  | succ count ih =>
    unfold Memory.writeBytes at hw ⊢
    cases hb : mem.writeByte address (bs.headD 0) with
    | error e =>
      rw [hb] at hw
      exact absurd (Prod.mk.inj hw).2 nofun
    | ok next =>
      obtain ⟨wide', hb', h'⟩ := h.writeByte hb
      rw [hb] at hw
      rw [hb']
      exact ih h' hw

end Resized

end Memory

/-! ## Raw images -/

namespace Image

open Memory

variable {small large : Nat} {f g : Filling} {wide : Memory}

namespace Filling

theorem flush_of_resized (h : Resized small large f.mem wide) (hf : f.flush = .ok g) :
    ∃ wide', { f with mem := wide }.flush = .ok { g with mem := wide' } ∧
      Resized small large g.mem wide' := by
  unfold flush at hf ⊢
  cases hw : f.mem.write f.address (Word.ofBytes f.collected) with
  | error e => simp [hw, bind, Except.bind] at hf
  | ok mem =>
    obtain ⟨wide', hw', h'⟩ := h.write hw
    rw [hw] at hf
    obtain rfl := Except.ok.inj hf
    exact ⟨wide', by rw [hw']; rfl, h'⟩

theorem push_of_resized (h : Resized small large f.mem wide) {b : Byte} (hf : f.push b = .ok g) :
    ∃ wide', { f with mem := wide }.push b = .ok { g with mem := wide' } ∧
      Resized small large g.mem wide' := by
  unfold push at hf ⊢
  dsimp only at hf ⊢
  split at hf
  · rename_i hc
    rw [if_pos hc]
    exact flush_of_resized (f := { f with collected := f.collected ++ [b] }) h hf
  · rename_i hc
    obtain rfl := Except.ok.inj hf
    exact ⟨wide, if_neg hc, h⟩

theorem absorb_of_resized (h : Resized small large f.mem wide) {bs : List Byte}
    (hf : f.absorb bs = (g, none)) :
    ∃ wide', { f with mem := wide }.absorb bs = ({ g with mem := wide' }, none) ∧
      Resized small large g.mem wide' := by
  induction bs generalizing f wide with
  | nil =>
    obtain ⟨rfl, -⟩ := Prod.mk.inj hf
    exact ⟨wide, rfl, h⟩
  | cons b bs ih =>
    unfold absorb at hf ⊢
    cases hp : f.push b with
    | error e => simp [hp] at hf
    | ok f' =>
      obtain ⟨wide', hp', h'⟩ := push_of_resized h hp
      rw [hp] at hf
      rw [hp']
      exact ih h' hf

theorem close_of_resized (h : Resized small large f.mem wide) (hf : f.close = (g, none)) :
    ∃ wide', { f with mem := wide }.close = ({ g with mem := wide' }, none) ∧
      Resized small large g.mem wide' := by
  unfold close at hf ⊢
  split at hf
  · rename_i hc
    obtain ⟨rfl, -⟩ := Prod.mk.inj hf
    exact ⟨wide, if_pos hc, h⟩
  · rename_i hc
    rw [if_neg hc]
    cases hp : f.flush with
    | error e => simp [hp] at hf
    | ok f' =>
      obtain ⟨wide', hp', h'⟩ := flush_of_resized h hp
      rw [hp] at hf
      obtain ⟨rfl, -⟩ := Prod.mk.inj hf
      exact ⟨wide', by rw [hp'], h'⟩

theorem drain_of_resized (h : Resized small large f.mem wide) {stream : List Delivery}
    (hf : f.drain stream = (g, none)) :
    ∃ wide', { f with mem := wide }.drain stream = ({ g with mem := wide' }, none) ∧
      Resized small large g.mem wide' := by
  induction stream generalizing f wide with
  | nil => exact close_of_resized h hf
  | cons d rest ih =>
    cases d with
    | interrupted => exact ih h hf
    | failed text => exact absurd (Prod.mk.inj hf).2 nofun
    | bytes bs =>
      cases bs with
      | nil => exact close_of_resized h hf
      | cons b bs =>
        unfold drain at hf ⊢
        cases ha : f.absorb (b :: bs) with
        | mk f' o =>
          rw [ha] at hf
          cases o with
          | some o => exact absurd (Prod.mk.inj hf).2 nofun
          | none =>
            obtain ⟨wide', ha', h'⟩ := absorb_of_resized h ha
            rw [ha']
            exact ih h' hf

end Filling

theorem loadBytes_of_resized {mem mem' : Memory} (h : Resized small large mem wide)
    {bs : List Byte} {words : Nat} (hl : loadBytes mem bs = (mem', .ok words)) :
    ∃ wide', loadBytes wide bs = (wide', .ok words) ∧ Resized small large mem' wide' := by
  unfold loadBytes load at hl ⊢
  cases hd : (Filling.start mem).drain [.bytes bs] with
  | mk f o =>
    rw [hd] at hl
    cases o with
    | some o => exact absurd (Prod.mk.inj hl).2 nofun
    | none =>
      obtain ⟨wide', hd', h'⟩ := Filling.drain_of_resized (f := .start mem) h hd
      obtain ⟨rfl, hn⟩ := Prod.mk.inj hl
      obtain rfl := Except.ok.inj hn
      have hs : { Filling.start mem with mem := wide } = Filling.start wide := rfl
      rw [hs] at hd'
      exact ⟨wide', by rw [hd'], h'⟩

end Image

/-! ## Executables -/

namespace Elf

open Memory

variable {small large : Nat} {mem mem' wide : Memory} {path : String} {file : List Byte}

theorem segment_of_resized (h : Resized small large mem wide) {x : Segment}
    (hx : x.load path file mem = (mem', none)) :
    ∃ wide', x.load path file wide = (wide', none) ∧ Resized small large mem' wide' := by
  unfold Segment.load at hx ⊢
  split at hx
  · exact absurd (Prod.mk.inj hx).2 nofun
  · rename_i ha
    rw [if_neg ha]
    cases hs : slice? file x.offset x.fileSize.toNat with
    | none => simp [hs] at hx
    | some bs =>
      cases hw : mem.writeBytes x.memorySize.toNat x.address bs with
      | mk m e =>
        simp only [hs, hw, Prod.mk.injEq, Option.map_eq_none_iff] at hx
        obtain ⟨rfl, rfl⟩ := hx
        obtain ⟨wide', hw', h'⟩ := h.writeBytes hw
        exact ⟨wide', by simp only [hw', Option.map_none], h'⟩

theorem loadSegments_of_resized (h : Resized small large mem wide) {segments : List Segment}
    (hx : loadSegments path file segments mem = (mem', none)) :
    ∃ wide', loadSegments path file segments wide = (wide', none) ∧
      Resized small large mem' wide' := by
  induction segments generalizing mem wide with
  | nil =>
    obtain ⟨rfl, -⟩ := Prod.mk.inj hx
    exact ⟨wide, rfl, h⟩
  | cons x rest ih =>
    unfold loadSegments at hx ⊢
    cases hs : x.load path file mem with
    | mk m e =>
      rw [hs] at hx
      cases e with
      | some e => exact absurd (Prod.mk.inj hx).2 nofun
      | none =>
        obtain ⟨wide', hs', h'⟩ := segment_of_resized h hs
        rw [hs']
        exact ih h' hx

theorem load_of_resized {s s' : State} (h : Resized small large s.mem wide)
    (hl : load path file s = (s', none)) :
    ∃ wide', load path file { s with mem := wide } = ({ s' with mem := wide' }, none) ∧
      Resized small large s'.mem wide' := by
  unfold load at hl ⊢
  cases hh : header path file with
  | error e => simp [hh] at hl
  | ok hd =>
    cases hs : loadableSegments path file hd with
    | error e => simp [hh, hs] at hl
    | ok segments =>
      cases hw : loadSegments path file segments s.mem with
      | mk m e =>
        simp only [hh, hs, hw, Prod.mk.injEq] at hl
        obtain ⟨rfl, rfl⟩ := hl
        obtain ⟨wide', hw', h'⟩ := loadSegments_of_resized h hw
        exact ⟨wide', by simp only [hs, hw'], h'⟩

end Elf

end FiveStage
