import TapeLang.Proofs.Machine.Stepping

namespace TapeLang

def ExecutionError.relabel (g : Failure → Failure) : ExecutionError → ExecutionError
  | .transfer position error => (g (.transfer error)).located position
  | .outOfRange position attempted tapeLength =>
      (g (.outOfRange attempted tapeLength)).located position
  | .unmatchedDelimiter position => .unmatchedDelimiter position
  | .stepLimitExceeded limit => .stepLimitExceeded limit

theorem Failure.relabel_located (g : Failure → Failure) (position : Nat) (f : Failure) :
    (f.located position).relabel g = (g f).located position := by
  cases f <;> rfl

theorem ExecutionError.relabel_id (e : ExecutionError) : e.relabel id = e := by
  cases e <;> rfl

theorem mapError_id {ε α : Type} (r : Except ε α) : r.mapError id = r := by
  cases r <;> rfl

theorem mapError_relabel_id {α : Type} (r : Except ExecutionError α) :
    r.mapError (·.relabel id) = r := by
  have hid : (ExecutionError.relabel id) = id := funext ExecutionError.relabel_id
  rw [hid, mapError_id]

namespace Machine

def settled (position : Nat) : Except Failure Unit → Except ExecutionError Step
  | .ok () => .ok .executed
  | .error f => .error (f.located position)

def acted (m : Machine) (b : UInt8) (d : Device) : Except Failure Unit → Machine
  | .ok () =>
      { m with
        device := d
        ip := m.ip + 1
        stats := m.stats.afterAtom (Instruction.ofByte? b) }
  | .error _ => { m with device := d }

theorem settled_relabel (position : Nat) (f : Except Failure Unit) (g : Failure → Failure) :
    settled position (f.mapError g) = (settled position f).mapError (·.relabel g) := by
  cases f with
  | ok => rfl
  | error e => exact congrArg Except.error (Failure.relabel_located g position e).symm

theorem Transition.act {m : Machine} {b : UInt8} {f : Except Failure Unit} {d : Device}
    (hb : m.program.code[m.ip]? = some b) (ha : IsAtom b)
    (he : Device.Effect (Instruction.ofByte? b) m.device f d) :
    Transition m (settled m.ip f) (m.acted b d f) := by
  cases f with
  | ok => exact .atom hb ha he
  | error => exact .atomFails hb ha he

theorem Transition.looks_or_acts {m m' : Machine} {r : Except ExecutionError Step}
    (h : Transition m r m') :
    (m'.device = m.device ∧ (∀ g, r.mapError (·.relabel g) = r) ∧
        ∀ d : Device, d.cell = m.device.cell →
          Transition { m with device := d } r { m' with device := d }) ∨
      ∃ b f, m.program.code[m.ip]? = some b ∧ IsAtom b ∧
        Device.Effect (Instruction.ofByte? b) m.device f m'.device ∧
        r = settled m.ip f ∧ m' = m.acted b m'.device f := by
  cases h with
  | halted hb => exact .inl ⟨rfl, fun _ => rfl, fun d _ => .halted hb⟩
  | atom hb ha he => exact .inr ⟨_, _, hb, ha, he, rfl, rfl⟩
  | atomFails hb ha he => exact .inr ⟨_, _, hb, ha, he, rfl, rfl⟩
  | enterLoop hb hc =>
      exact .inl ⟨rfl, fun _ => rfl, fun d hd => .enterLoop hb (hd.symm ▸ hc)⟩
  | skipLoop hb hc ht =>
      exact .inl ⟨rfl, fun _ => rfl, fun d hd => .skipLoop hb (hd.trans hc) ht⟩
  | unclosed hb hc ht =>
      exact .inl ⟨rfl, fun _ => rfl, fun d hd => .unclosed hb (hd.trans hc) ht⟩
  | leaveLoop hb hc =>
      exact .inl ⟨rfl, fun _ => rfl, fun d hd => .leaveLoop hb (hd.trans hc)⟩
  | repeatLoop hb hc ht =>
      exact .inl ⟨rfl, fun _ => rfl, fun d hd => .repeatLoop hb (hd.symm ▸ hc) ht⟩
  | unopened hb hc ht =>
      exact .inl ⟨rfl, fun _ => rfl, fun d hd => .unopened hb (hd.symm ▸ hc) ht⟩

end Machine

/-- Devices that fare alike under every byte, until `Parts` or `Past` lets them part. -/
structure Coupling where
  Rel : Device → Device → Prop
  relabel : Failure → Failure
  Parts : Failure → Prop
  Past : Device → Prop
  cell_eq : ∀ {d w : Device}, Rel d w → w.cell = d.cell
  effect : ∀ {i : Option Instruction} {d w d' : Device} {f : Except Failure Unit},
    Rel d w → Device.Effect i d f d' →
      (∃ w', Device.Effect i w (f.mapError relabel) w' ∧ Rel d' w') ∨
        (∃ e, f = .error e ∧ Parts e) ∨ Past d'
  past_effect : ∀ {i : Option Instruction} {d d' : Device} {f : Except Failure Unit},
    Past d → Device.Effect i d f d' → Past d'

namespace Coupling

open Machine

structure Couples (C : Coupling) (m w : Machine) : Prop where
  frame : w = { m with device := w.device }
  device : C.Rel m.device w.device

variable {C : Coupling} {m m' w : Machine} {fuel count : Nat}

def Parted (C : Coupling) (e : ExecutionError) : Prop :=
  ∃ f position, e = Failure.located position f ∧ C.Parts f

theorem past_transition {r : Except ExecutionError Step} (hp : C.Past m.device)
    (ht : Transition m r m') : C.Past m'.device := by
  rcases ht.looks_or_acts with ⟨hd, -⟩ | ⟨b, f, -, -, he, -⟩
  · rwa [hd]
  · exact C.past_effect hp he

theorem past_stepped (hp : C.Past m.device) (hm : m.stepped count = some m') :
    C.Past m'.device := by
  induction count generalizing m with
  | zero =>
      obtain rfl := Option.some.inj hm
      exact hp
  | succ count ih =>
      obtain ⟨m₁, ht, hm₁⟩ := exists_transition_of_stepped hm
      exact ih (past_transition hp ht) hm₁

theorem past_run (hp : C.Past m.device) (fuel : Nat) : C.Past (m.run fuel).2.device :=
  run_invariant (P := fun m => C.Past m.device) past_transition id hp fuel

namespace Couples

theorem program (h : C.Couples m w) : w.program = m.program := by
  rw [h.frame]

theorem ip (h : C.Couples m w) : w.ip = m.ip := by
  rw [h.frame]

theorem stats (h : C.Couples m w) : w.stats = m.stats := by
  rw [h.frame]

theorem log (h : C.Couples m w) : w.log = m.log := by
  rw [h.frame]

theorem isHalted (h : C.Couples m w) : w.isHalted = m.isHalted := by
  rw [h.frame]
  rfl

theorem limitReached? (h : C.Couples m w) : w.limitReached? = m.limitReached? := by
  rw [h.frame]
  rfl

theorem record (h : C.Couples m w) (e : Event) : C.Couples (m.record e) (w.record e) := by
  refine ⟨?_, h.device⟩
  rw [h.frame]
  rfl

theorem transition {r : Except ExecutionError Step} (h : C.Couples m w)
    (ht : Transition m r m') :
    (∃ w', Transition w (r.mapError (·.relabel C.relabel)) w' ∧ C.Couples m' w') ∨
      C.Past m'.device ∨ ∃ e, r = .error e ∧ C.Parted e := by
  obtain ⟨hw, hd⟩ := h
  rcases ht.looks_or_acts with ⟨hd', hr, hlook⟩ | ⟨b, f, hb, ha, he, rfl, hm'⟩
  · refine .inl ⟨{ m' with device := w.device }, ?_, rfl, hd' ▸ hd⟩
    rw [hw, hr]
    exact hlook w.device (C.cell_eq hd)
  · rcases C.effect hd he with ⟨d, hew, hd'⟩ | ⟨e, rfl, hp⟩ | hp
    · refine .inl ⟨w.acted b d (f.mapError C.relabel), ?_, ?_, ?_⟩
      · rw [← settled_relabel]
        rw [hw] at hew ⊢
        exact .act hb ha hew
      · rw [hm', hw]
        cases f <;> rfl
      · rw [hm'] at hd' ⊢
        cases f <;> exact hd'
    · exact .inr (.inr ⟨_, rfl, e, m.ip, rfl, hp⟩)
    · exact .inr (.inl hp)

theorem executed (h : C.Couples m w) (ht : Transition m (.ok .executed) m') :
    (∃ w', Transition w (.ok .executed) w' ∧ C.Couples m' w') ∨ C.Past m'.device := by
  rcases h.transition ht with hw | hp | ⟨e, he, -⟩
  · exact .inl hw
  · exact .inr hp
  · cases he

theorem stepped (h : C.Couples m w) (hm : m.stepped count = some m') :
    (∃ w', w.stepped count = some w' ∧ C.Couples m' w') ∨ C.Past m'.device := by
  induction count generalizing m w with
  | zero =>
      obtain rfl := Option.some.inj hm
      exact .inl ⟨w, rfl, h⟩
  | succ count ih =>
      obtain ⟨m₁, ht, hm₁⟩ := exists_transition_of_stepped hm
      rcases h.executed ht with ⟨w₁, htw, hw₁⟩ | hp
      · rw [stepped_succ htw]
        exact ih hw₁ hm₁
      · exact .inr (past_stepped hp hm₁)

theorem stops {r : Except ExecutionError RunStats} (h : C.Couples m w) (hs : Stops m r m') :
    (∃ w', Stops w (r.mapError (·.relabel C.relabel)) w' ∧ C.Couples m' w') ∨
      C.Past m'.device ∨ ∃ e, r = .error e ∧ C.Parted e := by
  cases hs with
  | halt hh =>
      refine .inl ⟨_, ?_, h.record _⟩
      rw [← h.stats]
      exact .halt (h.isHalted.trans hh)
  | limit hh hl =>
      refine .inl ⟨_, ?_, h.record _⟩
      rw [← h.ip]
      exact .limit (h.isHalted.trans hh) (h.limitReached?.trans hl)
  | fail hl ht =>
      rcases h.transition ht with ⟨w', htw, hw'⟩ | hp | ⟨e, he, hparts⟩
      · exact .inl ⟨w', .fail (h.limitReached?.trans hl) htw, hw'⟩
      · exact .inr (.inl hp)
      · obtain rfl := Except.error.inj he
        exact .inr (.inr ⟨_, rfl, hparts⟩)

theorem run (h : C.Couples m w) (fuel : Nat) :
    (∃ w', w.run fuel = ((m.run fuel).1.map (·.mapError (·.relabel C.relabel)), w') ∧
        C.Couples (m.run fuel).2 w') ∨
      C.Past (m.run fuel).2.device ∨ ∃ e, (m.run fuel).1 = some (.error e) ∧ C.Parted e := by
  induction fuel generalizing m w with
  | zero => exact .inl ⟨w, rfl, h⟩
  | succ fuel ih =>
      rcases m.stops_or_executes with ⟨r, m', hs⟩ | ⟨hl, m₁, ht⟩
      · rw [hs.run_succ]
        rcases h.stops hs with ⟨w', hsw, hw'⟩ | hp | ⟨e, rfl, hparts⟩
        · exact .inl ⟨w', hsw.run_succ fuel, hw'⟩
        · exact .inr (.inl hp)
        · exact .inr (.inr ⟨e, rfl, hparts⟩)
      · rw [run_succ_of_executed fuel hl ht]
        rcases h.executed ht with ⟨w₁, htw, hw₁⟩ | hp
        · rw [run_succ_of_executed fuel (h.limitReached?.trans hl) htw]
          exact ih hw₁
        · exact .inr (.inl (past_run hp fuel))

end Couples

structure Faithful (C : Coupling) : Prop where
  relabel : C.relabel = id
  not_parts : ∀ f, ¬ C.Parts f
  not_past : ∀ d, ¬ C.Past d

theorem never_past {i : Option Instruction} {d d' : Device} {f : Except Failure Unit}
    (h : False) (_ : Device.Effect i d f d') : False :=
  h

section

variable (Rel : Device → Device → Prop) (cell_eq : ∀ {d w : Device}, Rel d w → w.cell = d.cell)
  (effect : ∀ {i : Option Instruction} {d w d' : Device} {f : Except Failure Unit},
    Rel d w → Device.Effect i d f d' → ∃ w', Device.Effect i w f w' ∧ Rel d' w')

def tight : Coupling where
  Rel := Rel
  relabel := id
  Parts _ := False
  Past _ := False
  cell_eq := cell_eq
  effect := by
    intro i d w d' f hr he
    rw [mapError_id]
    exact .inl (effect hr he)
  past_effect := @never_past

theorem tight_faithful : (tight Rel cell_eq effect).Faithful :=
  ⟨rfl, fun _ => id, fun _ => id⟩

end

end Coupling

namespace Machine

inductive Answer where
  | step (r : Except ExecutionError Step)
  | run (r : Option (Except ExecutionError RunStats))
  deriving DecidableEq, Repr

def answer (m : Machine) : Call → Answer
  | .step => .step m.step.1
  | .run fuel => .run (m.run fuel).1

def answers (m : Machine) : List Call → List Answer
  | [] => []
  | c :: calls => m.answer c :: (m.call c).answers calls

end Machine

namespace Coupling.Faithful

open Machine

variable {C : Coupling} {m m' w : Machine} (hC : C.Faithful) (h : C.Couples m w)
include hC

theorem mapError_relabel {α : Type} (r : Except ExecutionError α) :
    r.mapError (·.relabel C.relabel) = r := by
  rw [hC.relabel, mapError_relabel_id]

theorem not_parted (e : ExecutionError) : ¬ C.Parted e := by
  rintro ⟨f, position, -, hp⟩
  exact hC.not_parts f hp

include h

theorem step : w.step.1 = m.step.1 ∧ C.Couples m.step.2 w.step.2 := by
  obtain ⟨r, m', ht⟩ := m.exists_transition
  rcases h.transition ht with ⟨w', htw, hw'⟩ | hp | ⟨e, -, hp⟩
  · rw [hC.mapError_relabel] at htw
    rw [step_of_transition ht, step_of_transition htw]
    exact ⟨rfl, hw'⟩
  · exact absurd hp (hC.not_past _)
  · exact absurd hp (hC.not_parted e)

theorem run (fuel : Nat) :
    (w.run fuel).1 = (m.run fuel).1 ∧ C.Couples (m.run fuel).2 (w.run fuel).2 := by
  rcases h.run fuel with ⟨w', hw, hw'⟩ | hp | ⟨e, -, hp⟩
  · rw [hw]
    refine ⟨?_, hw'⟩
    cases (m.run fuel).1 with
    | none => rfl
    | some r => exact congrArg some (hC.mapError_relabel r)
  · exact absurd hp (hC.not_past _)
  · exact absurd hp (hC.not_parted e)

theorem call (c : Call) : w.answer c = m.answer c ∧ C.Couples (m.call c) (w.call c) := by
  cases c with
  | step =>
      obtain ⟨hr, hw⟩ := hC.step h
      exact ⟨congrArg Answer.step hr, hw⟩
  | run fuel =>
      obtain ⟨hr, hw⟩ := hC.run h fuel
      exact ⟨congrArg Answer.run hr, hw⟩

theorem answers (calls : List Call) :
    w.answers calls = m.answers calls ∧ C.Couples (m.after calls) (w.after calls) := by
  induction calls generalizing m w with
  | nil => exact ⟨rfl, h⟩
  | cons c calls ih =>
      obtain ⟨hc, hw⟩ := hC.call h c
      obtain ⟨hcalls, hw'⟩ := ih hw
      refine ⟨?_, hw'⟩
      rw [Machine.answers, hc, hcalls, Machine.answers]

end Coupling.Faithful

end TapeLang
