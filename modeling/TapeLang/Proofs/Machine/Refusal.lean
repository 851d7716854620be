import TapeLang.Proofs.Machine.Accounting
import TapeLang.Proofs.Machine.Unmatched
import TapeLang.Proofs.Stream.Reply

namespace TapeLang.Machine

variable {m m' : Machine} {e : ExecutionError}

/-- The step from `m` to `m'` did nothing that counts: it may have used up stream replies that
move no byte, and it changed nothing else. -/
structure Untouched (m m' : Machine) : Prop where
  frame : m' = { m with device := m'.device }
  tape : m'.device.tape = m.device.tape
  stored : m'.device.output.stored = m.device.output.stored
  unread : m'.device.input.unread = m.device.input.unread

inductive Refuses (m : Machine) : ExecutionError → Prop
  | leftEdge (hi : m.Executes .moveLeft) (hp : m.device.tape.pointer = 0) :
      Refuses m (.outOfRange m.ip (-1) m.device.tape.size)
  | rightEdge (hi : m.Executes .moveRight) (hp : m.device.tape.pointer + 1 = m.device.tape.size) :
      Refuses m (.outOfRange m.ip m.device.tape.size m.device.tape.size)
  | read {e : TransferError} (hi : m.Executes .input)
      (hr : (m.device.input.answer 0).outcome = .error e) : Refuses m (.transfer m.ip e)
  | write {e : TransferError} (hi : m.Executes .output)
      (hw : (m.device.output.verdict 0).receipt.outcome = .error e) : Refuses m (.transfer m.ip e)
  | unmatched (hu : m.Unmatched) : Refuses m (.unmatchedDelimiter m.ip)

theorem Transition.untouched (h : Transition m (.error e) m') : m.Untouched m' := by
  obtain ⟨hframe, htape, -⟩ := h.eq_of_error
  cases h.exchange with
  | readFails _ hr ho => exact ⟨hframe, htape, by rw [ho], Source.unread_of_readByte hr⟩
  | writeFails _ hw hi =>
      exact ⟨hframe, htape, (Sink.refused_of_writeByte hw).1, by rw [hi]⟩
  | quiet _ _ hin hout => exact ⟨hframe, htape, by rw [hout], by rw [hin]⟩

theorem Transition.eq_of_not_transfer (h : Transition m (.error e) m')
    (hne : ∀ position f, e ≠ .transfer position f) : m' = m := by
  cases h with
  | atomFails hb ha he =>
      generalize Instruction.ofByte? _ = k at he
      cases he with
      | rightEdge => rfl
      | leftEdge => rfl
      | outputFails => exact absurd rfl (hne _ _)
      | inputFails => exact absurd rfl (hne _ _)
  | unclosed => rfl
  | unopened => rfl

theorem Transition.refuses (h : Transition m (.error e) m') : m.Refuses e := by
  cases h with
  | atomFails hb ha he =>
      have hat i : m.Executes i ↔ _ := executes_iff hb
      generalize Instruction.ofByte? _ = k at hat he
      cases he with
      | rightEdge _ hp => exact .rightEdge ((hat _).2 rfl) hp
      | leftEdge _ hp => exact .leftEdge ((hat _).2 rfl) hp
      | outputFails _ hw =>
          have hverdict := (Sink.exists_takes m.device.output m.device.cell).1
          rw [hw] at hverdict
          exact .write ((hat _).2 rfl) hverdict.symm
      | inputFails _ hr =>
          have hanswer := (Source.exists_takes m.device.input).1
          rw [hr] at hanswer
          exact .read ((hat _).2 rfl) hanswer.symm
  | unclosed hb hc ht => exact .unmatched (.inl ⟨hb, hc, ht⟩)
  | unopened hb hc ht => exact .unmatched (.inr ⟨hb, hc, ht⟩)

theorem Transition.fails {i : Instruction} {f : Failure} {d : Device} (hi : m.Executes i)
    (he : Device.Effect (some i) m.device (.error f) d) :
    Transition m (.error (f.located m.ip)) { m with device := d } := by
  have ha : IsAtom i.byte := by cases he <;> decide
  exact .atomFails hi ha (by rwa [Instruction.ofByte?_byte])

theorem Refuses.exists_transition (h : m.Refuses e) : ∃ m', Transition m (.error e) m' := by
  cases h with
  | leftEdge hi hp => exact ⟨_, .fails hi (.leftEdge m.device hp)⟩
  | rightEdge hi hp => exact ⟨_, .fails hi (.rightEdge m.device hp)⟩
  | read hi hr =>
      have hread := (Source.exists_takes m.device.input).1.trans hr
      exact ⟨_, .fails hi (.inputFails m.device (Prod.ext hread rfl))⟩
  | write hi hw =>
      have hwrite := (Sink.exists_takes m.device.output m.device.cell).1.trans hw
      exact ⟨_, .fails hi (.outputFails m.device (Prod.ext hwrite rfl))⟩
  | unmatched hu =>
      rcases hu with ⟨hb, hc, ht⟩ | ⟨hb, hc, ht⟩
      · exact ⟨m, .unclosed hb hc ht⟩
      · exact ⟨m, .unopened hb hc ht⟩

theorem step_eq_error_iff : m.step.1 = .error e ↔ m.Refuses e := by
  constructor
  · intro h
    exact (step_eq_iff.1 (Prod.ext h rfl)).refuses
  · intro h
    obtain ⟨m', ht⟩ := h.exists_transition
    rw [step_of_transition ht]

theorem refuses_outOfRange_iff {position tapeLength : Nat} {attempted : Int} :
    m.Refuses (.outOfRange position attempted tapeLength) ↔
      position = m.ip ∧ tapeLength = m.device.tape.size ∧
        (m.Executes .moveLeft ∧ m.device.tape.pointer = 0 ∧ attempted = -1 ∨
          m.Executes .moveRight ∧ m.device.tape.pointer + 1 = m.device.tape.size ∧
            attempted = m.device.tape.size) := by
  constructor
  · intro h
    cases h with
    | leftEdge hi hp => exact ⟨rfl, rfl, .inl ⟨hi, hp, rfl⟩⟩
    | rightEdge hi hp => exact ⟨rfl, rfl, .inr ⟨hi, hp, rfl⟩⟩
  · rintro ⟨rfl, rfl, ⟨hi, hp, rfl⟩ | ⟨hi, hp, rfl⟩⟩
    · exact .leftEdge hi hp
    · exact .rightEdge hi hp

theorem refuses_transfer_iff {position : Nat} {e : TransferError} :
    m.Refuses (.transfer position e) ↔
      position = m.ip ∧
        (m.Executes .input ∧ e.direction = .read ∧
            (m.device.input.answer 0).outcome = .error e ∨
          m.Executes .output ∧ e.direction = .write ∧
            (m.device.output.verdict 0).receipt.outcome = .error e) := by
  constructor
  · intro h
    cases h with
    | read hi hr => exact ⟨rfl, .inl ⟨hi, (Reply.of_outcome_eq_error hr).1, hr⟩⟩
    | write hi hw => exact ⟨rfl, .inr ⟨hi, (SinkEvent.of_outcome_eq_error hw).1, hw⟩⟩
  · rintro ⟨rfl, ⟨hi, -, hr⟩ | ⟨hi, -, hw⟩⟩
    · exact .read hi hr
    · exact .write hi hw

theorem refuses_unmatchedDelimiter_iff {position : Nat} :
    m.Refuses (.unmatchedDelimiter position) ↔ position = m.ip ∧ m.Unmatched := by
  constructor
  · rintro ⟨⟩
    rename_i hu
    exact ⟨rfl, hu⟩
  · rintro ⟨rfl, hu⟩
    exact .unmatched hu

theorem step_succeeds_iff : (∃ r, m.step.1 = .ok r) ↔ ∀ e, ¬ m.Refuses e := by
  constructor
  · rintro ⟨r, hr⟩ e h
    cases hr.symm.trans (step_eq_error_iff.2 h)
  · intro h
    cases hs : m.step.1 with
    | ok r => exact ⟨r, rfl⟩
    | error e => exact absurd (step_eq_error_iff.1 hs) (h e)

theorem Run.exists_stops {bytes : List UInt8} {r : Except ExecutionError RunStats}
    (h : Run m bytes r m') : ∃ m₁, m.stepped bytes.length = some m₁ ∧ Stops m₁ r m' := by
  induction h with
  | stop hs => exact ⟨_, rfl, hs⟩
  | step _ _ ht _ ih =>
      obtain ⟨m₁, hm, hs⟩ := ih
      exact ⟨m₁, (stepped_succ ht _).trans hm, hs⟩

theorem failed_step_atomic (m : Machine) :
    (∀ e m', m.step = (.error e, m') →
      m.Untouched m' ∧ e.position? = some m.ip ∧
        ((∀ position f, e ≠ .transfer position f) → m' = m)) ∧
    (∀ position attempted tapeLength,
      m.step.1 = .error (.outOfRange position attempted tapeLength) ↔
        position = m.ip ∧ tapeLength = m.device.tape.size ∧
          (m.Executes .moveLeft ∧ m.device.tape.pointer = 0 ∧ attempted = -1 ∨
            m.Executes .moveRight ∧ m.device.tape.pointer + 1 = m.device.tape.size ∧
              attempted = m.device.tape.size)) ∧
    (∀ position e, m.step.1 = .error (.transfer position e) ↔
      position = m.ip ∧
        (m.Executes .input ∧ e.direction = .read ∧
            (m.device.input.answer 0).outcome = .error e ∨
          m.Executes .output ∧ e.direction = .write ∧
            (m.device.output.verdict 0).receipt.outcome = .error e)) ∧
    (∀ position, m.step.1 = .error (.unmatchedDelimiter position) ↔
      position = m.ip ∧ m.Unmatched) ∧
    ((∃ r, m.step.1 = .ok r) ↔ ∀ e, ¬ m.Refuses e) ∧
    (∀ fuel e m', m.run fuel = (some (.error e), m') →
      (∀ limit, e ≠ .stepLimitExceeded limit) →
        (∃ count m₁, m.stepped count = some m₁ ∧ m₁.step = (.error e, m') ∧ m₁.Untouched m') ∧
        ((∀ position f, e ≠ .transfer position f) →
          ∀ more, m'.run (more + 1) = (some (.error e), m'))) ∧
    ∀ fuel limit m', m.run fuel = (some (.error (.stepLimitExceeded limit)), m') →
      (∃ count m₁, m.stepped count = some m₁ ∧ m' = m₁.record (.stepLimitReached limit m₁.ip)) ∧
      ∀ more, m'.run (more + 1) = (some (.error (.stepLimitExceeded limit)),
        m'.record (.stepLimitReached limit m'.ip)) := by
  refine ⟨?_, ?_, ?_, ?_, step_succeeds_iff, ?_, ?_⟩
  · intro e m' h
    have ht := step_eq_iff.1 h
    exact ⟨ht.untouched, ht.eq_of_error.2.2, ht.eq_of_not_transfer⟩
  · intro position attempted tapeLength
    rw [step_eq_error_iff, refuses_outOfRange_iff]
  · intro position e
    rw [step_eq_error_iff, refuses_transfer_iff]
  · intro position
    rw [step_eq_error_iff, refuses_unmatchedDelimiter_iff]
  · intro fuel e m' h hlimit
    obtain ⟨m₁, hm, hs⟩ := (Run.of_run h).exists_stops
    cases hs with
    | limit => exact absurd rfl (hlimit _)
    | fail hl ht =>
        refine ⟨⟨_, m₁, hm, step_of_transition ht, ht.untouched⟩, fun hne more => ?_⟩
        obtain rfl := ht.eq_of_not_transfer hne
        exact (Stops.fail hl ht).run_succ more
  · intro fuel limit m' h
    obtain ⟨m₁, hm, hs⟩ := (Run.of_run h).exists_stops
    cases hs with
    | limit hh hl =>
        -- The record of the limit is no part of what a run looks at.
        have hagain : Stops (m₁.record (.stepLimitReached limit m₁.ip)) _ _ := .limit hh hl
        exact ⟨⟨_, m₁, hm, rfl⟩, fun more => hagain.run_succ more⟩
    | fail _ ht => cases ht.eq_of_error.2.2

theorem failed_step_atomic_short_read :
    let first := start (.ofList [44, 60]) { tapeLength := 1 }
      (.ofEvents [.fail ⟨.interrupted, "signal"⟩, .claim 2, .data [7]]) .empty
    let m := first.after [.step, .step]
    first.step.1 = .error (.transfer 0 ⟨.read, .count 2⟩) ∧ first.Untouched first.step.2 ∧
      first.step.2.device.input.unread = [7] ∧
      m.run 1 = (some (.error (.outOfRange 1 (-1) 1)), m) ∧
      m.run 9 = (some (.error (.outOfRange 1 (-1) 1)), m) := by
  intro first m
  have hread : first.step.1 = .error (.transfer 0 ⟨.read, .count 2⟩) := by decide
  have hrun : m.run 1 = (some (.error (.outOfRange 1 (-1) 1)), m) := by decide
  obtain ⟨hatomic, -⟩ := failed_step_atomic first
  obtain ⟨huntouched, -⟩ := hatomic _ _ (Prod.ext hread rfl)
  obtain ⟨-, -, -, -, -, hstuck, -⟩ := failed_step_atomic m
  exact ⟨hread, huntouched, huntouched.unread, hrun, (hstuck 1 _ _ hrun nofun).2 nofun 8⟩

end TapeLang.Machine
