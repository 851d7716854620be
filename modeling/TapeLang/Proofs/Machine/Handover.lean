import TapeLang.Proofs.Machine.Coupling
import TapeLang.Proofs.Machine.Refusal

namespace TapeLang

namespace Source

variable {s s' t : Source} {ahead bytes : List UInt8} {r : Except TransferError UInt8}

/-- What `t` has left is what `s` has left, and then `ahead`. -/
def Precedes (s : Source) (ahead : List UInt8) (t : Source) : Prop :=
  ahead = [] ∧ t = s ∨ ∃ bytes, s.Holds bytes ∧ t.Holds (bytes ++ ahead)

theorem Precedes.holds (h : s.Precedes ahead t) (ha : ahead ≠ []) :
    ∃ bytes, s.Holds bytes ∧ t.Holds (bytes ++ ahead) :=
  h.resolve_left fun hnil => ha hnil.1

theorem Precedes.readByte (h : s.Precedes ahead t) (hr : s.readByte = (r, s')) :
    (∃ t', t.readByte = (r, t') ∧ s'.Precedes ahead t') ∨
      ahead ≠ [] ∧ r = .error ⟨.read, .count 0⟩ := by
  rcases h with ⟨ha, rfl⟩ | ⟨bytes, hs, ht⟩
  · exact .inl ⟨s', hr, .inl ⟨ha, rfl⟩⟩
  · obtain ⟨s₁, hs₁, hholds, -⟩ := hs.readByte_eq
    obtain ⟨t₁, ht₁, htholds, -⟩ := ht.readByte_eq
    obtain ⟨rfl, rfl⟩ := Prod.mk.inj (hs₁.symm.trans hr)
    cases bytes with
    | cons b bytes => exact .inl ⟨t₁, ht₁, .inr ⟨bytes, hholds, htholds⟩⟩
    | nil =>
        cases ahead with
        | nil => exact .inl ⟨t₁, ht₁, .inr ⟨[], hholds, htholds⟩⟩
        | cons b ahead => exact .inr ⟨List.cons_ne_nil b ahead, rfl⟩

theorem Precedes.refill {b : UInt8} (h : s.Precedes (b :: ahead) t) (hs : s.left = 0) :
    (ofBytes [b]).Precedes ahead t := by
  obtain ⟨bytes, hbytes, ht⟩ := h.holds (List.cons_ne_nil b ahead)
  rw [hbytes.left_eq, List.length_eq_zero_iff] at hs
  subst hs
  exact .inr ⟨[b], holds_ofBytes [b], ht⟩

end Source

namespace Sink

variable {s s' : Sink} {value : UInt8} {verdict : SinkEvent}

def withPast (s : Sink) (past : Array UInt8) : Sink :=
  { s with stored := past ++ s.stored }

theorem Yields.withPast (h : s.Yields value verdict s') (past : Array UInt8) :
    (s.withPast past).Yields value verdict (s'.withPast past) := by
  induction h with
  | ended =>
      rw [Sink.withPast, Sink.withPast, Array.append_push]
      exact .ended _ _
  | accepted =>
      rw [Sink.withPast, Sink.withPast, Array.append_push]
      exact .accepted _ _ _
  | claim => exact .claim _ _ _ _
  | fault hf => exact .fault hf _ _ _
  | interrupted hf _ ih => exact .interrupted hf ih

theorem writeByte_withPast (s : Sink) (past : Array UInt8) (value : UInt8) :
    (s.withPast past).writeByte value =
      ((s.writeByte value).1, (s.writeByte value).2.withPast past) := by
  obtain ⟨verdict, s', h⟩ := s.exists_yields value
  rw [(h.withPast past).writeByte_eq, h.writeByte_eq]

end Sink

open Device in
/-- Devices of which the second has stored `past` before, and has been given `ahead` already. -/
def handover (ahead : List UInt8) (past : Array UInt8) : Coupling where
  Rel d w := w = ⟨d.tape, w.input, d.output.withPast past⟩ ∧ d.input.Precedes ahead w.input
  relabel := id
  Parts f := ahead ≠ [] ∧ f = .transfer ⟨.read, .count 0⟩
  Past _ := False
  cell_eq := by
    rintro d w ⟨hw, -⟩
    rw [hw]
    rfl
  effect := by
    rintro i d w d' f ⟨hw, hin⟩ he
    rw [hw, mapError_id]
    have written (s t : Source) (hs : Effect i (d.withInput s) f (d'.withInput t)) :
        Effect i ⟨d.tape, s, d.output.withPast past⟩ f ⟨d'.tape, t, d'.output.withPast past⟩ := by
      rcases hs.writes_or_ignores with ⟨ho, hsame⟩ | ⟨r, hr, hsame⟩
      · have ho : d'.output = d.output := ho
        rw [ho]
        exact hsame _
      · have hr : d.output.writeByte d.cell = (r, d'.output) := hr
        refine hsame _ _ ?_
        change (d.output.withPast past).writeByte d.cell = _
        rw [Sink.writeByte_withPast, hr]
    rcases he.reads_or_ignores with ⟨hd', hsame⟩ | ⟨r, hr, herror, hsame⟩
    · exact .inl ⟨_, written _ _ (hsame w.input), rfl, hd' ▸ hin⟩
    · rcases hin.readByte hr with ⟨t, ht, hin'⟩ | ⟨ha, rfl⟩
      · exact .inl ⟨_, written _ _ (hsame _ _ ht), rfl, hin'⟩
      · exact .inr (.inl ⟨_, herror _ rfl, ha, rfl⟩)
  past_effect := @Coupling.never_past

namespace Machine

variable {m m' : Machine}

def withPast (m : Machine) (past : Log) : Machine :=
  { m with log := past ++ m.log }

theorem Transition.withPast {r : Except ExecutionError Step} (h : Transition m r m')
    (past : Log) : Transition (m.withPast past) r (m'.withPast past) := by
  have jumped (e : Event) (target : Nat) :
      (m.jump e target).withPast past = (m.withPast past).jump e target := by
    simp only [Machine.withPast, jump, Array.append_push]
  cases h with
  | halted hb => exact .halted hb
  | atom hb ha he => exact .atom hb ha he
  | atomFails hb ha he => exact .atomFails hb ha he
  | enterLoop hb hc => exact .enterLoop hb hc
  | skipLoop hb hc ht =>
      rw [jumped]
      exact .skipLoop hb hc ht
  | unclosed hb hc ht => exact .unclosed hb hc ht
  | leaveLoop hb hc => exact .leaveLoop hb hc
  | repeatLoop hb hc ht =>
      rw [jumped]
      exact .repeatLoop hb hc ht
  | unopened hb hc ht => exact .unopened hb hc ht

theorem Stops.withPast {r : Except ExecutionError RunStats} (h : Stops m r m') (past : Log) :
    Stops (m.withPast past) r (m'.withPast past) := by
  have recorded (e : Event) : (m.record e).withPast past = (m.withPast past).record e := by
    simp only [Machine.withPast, record, Array.append_push]
  cases h with
  | halt hh =>
      rw [recorded]
      exact .halt hh
  | limit hh hl =>
      rw [recorded]
      exact .limit hh hl
  | fail hl ht => exact .fail hl (ht.withPast past)

theorem Stops.starved {e : ExecutionError} {ahead : List UInt8} {past : Array UInt8}
    {t : Source} (h : Stops m (.error e) m') (he : (handover ahead past).Parted e)
    (hin : m.device.input.Precedes ahead t) :
    ahead ≠ [] ∧ m.limitReached? = none ∧ m.Executes .input ∧ m.device.input.left = 0 := by
  obtain ⟨f, position, rfl, ha, rfl⟩ := he
  cases h with
  | fail hl ht =>
      obtain ⟨-, ⟨hi, -, hanswer⟩ | ⟨-, hwrite, -⟩⟩ := refuses_transfer_iff.1 ht.refuses
      · obtain ⟨bytes, hbytes, -⟩ := hin.holds ha
        obtain ⟨s', hread, -⟩ := hbytes.readByte_eq
        have hfirst := (m.device.input.exists_takes).1.trans hanswer
        rw [hread] at hfirst
        obtain ⟨rfl, -⟩ := Source.firstOf_eq_error hfirst
        exact ⟨ha, hl, hi, hbytes.left_eq⟩
      · cases hwrite

end Machine

end TapeLang
