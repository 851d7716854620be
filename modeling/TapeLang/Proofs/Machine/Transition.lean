import TapeLang.Machine.Basic
import TapeLang.Proofs.Machine.Effect

namespace TapeLang

@[simp]
theorem RunStats.steps_afterAtom (s : RunStats) (i : Option Instruction) :
    (s.afterAtom i).steps = s.steps + 1 := by
  unfold RunStats.afterAtom
  split <;> rfl

namespace Machine

inductive Transition (m : Machine) : Except ExecutionError Step → Machine → Prop
  | halted (hb : m.program.code[m.ip]? = none) : Transition m (.ok .halted) m
  | atom {b : UInt8} {d : Device} (hb : m.program.code[m.ip]? = some b) (ha : IsAtom b)
      (he : Device.Effect (Instruction.ofByte? b) m.device (.ok ()) d) :
      Transition m (.ok .executed)
        { m with
          device := d
          ip := m.ip + 1
          stats := m.stats.afterAtom (Instruction.ofByte? b) }
  | atomFails {b : UInt8} {f : Failure} {d : Device} (hb : m.program.code[m.ip]? = some b)
      (ha : IsAtom b) (he : Device.Effect (Instruction.ofByte? b) m.device (.error f) d) :
      Transition m (.error (f.located m.ip)) { m with device := d }
  | enterLoop (hb : m.program.code[m.ip]? = some Instruction.loopStart.byte)
      (hc : m.device.cell ≠ 0) : Transition m (.ok .executed) m.advance
  | skipLoop {target : Nat} (hb : m.program.code[m.ip]? = some Instruction.loopStart.byte)
      (hc : m.device.cell = 0) (ht : m.program.matchingClose m.ip = some target) :
      Transition m (.ok .executed) (m.jump (.skipLoop m.ip target) target)
  | unclosed (hb : m.program.code[m.ip]? = some Instruction.loopStart.byte)
      (hc : m.device.cell = 0) (ht : m.program.matchingClose m.ip = none) :
      Transition m (.error (.unmatchedDelimiter m.ip)) m
  | leaveLoop (hb : m.program.code[m.ip]? = some Instruction.loopEnd.byte)
      (hc : m.device.cell = 0) : Transition m (.ok .executed) m.advance
  | repeatLoop {target : Nat} (hb : m.program.code[m.ip]? = some Instruction.loopEnd.byte)
      (hc : m.device.cell ≠ 0) (ht : m.program.matchingOpen m.ip = some target) :
      Transition m (.ok .executed) (m.jump (.repeatLoop m.ip target) target)
  | unopened (hb : m.program.code[m.ip]? = some Instruction.loopEnd.byte)
      (hc : m.device.cell ≠ 0) (ht : m.program.matchingOpen m.ip = none) :
      Transition m (.error (.unmatchedDelimiter m.ip)) m

theorem executeAtom_of_effect {m : Machine} {b : UInt8} {r : Except Failure Unit} {d : Device}
    (h : Device.Effect (Instruction.ofByte? b) m.device r d) :
    m.executeAtom b =
      match r with
      | .ok () =>
          (.ok .executed,
            { m with
              device := d
              ip := m.ip + 1
              stats := m.stats.afterAtom (Instruction.ofByte? b) })
      | .error f => (.error (f.located m.ip), { m with device := d }) := by
  obtain ⟨program, device, ip, stats, stepLimit, log⟩ := m
  unfold executeAtom
  simp only [Device.perform_of_effect h ip]
  cases r <;> rfl

theorem step_of_atom {m : Machine} {b : UInt8} (hb : m.program.code[m.ip]? = some b)
    (ha : IsAtom b) : m.step = m.executeAtom b := by
  simp only [step, hb, if_neg ha.1, if_neg ha.2]

theorem step_of_loopStart {m : Machine}
    (hb : m.program.code[m.ip]? = some Instruction.loopStart.byte) :
    m.step = m.executeLoopStart := by
  simp only [step, hb, if_true]

theorem step_of_loopEnd {m : Machine}
    (hb : m.program.code[m.ip]? = some Instruction.loopEnd.byte) :
    m.step = m.executeLoopEnd := by
  simp only [step, hb, if_neg loopEnd_ne_loopStart, if_true]

theorem step_of_transition {m m' : Machine} {r : Except ExecutionError Step}
    (h : Transition m r m') : m.step = (r, m') := by
  cases h with
  | halted hb => simp only [step, hb]
  | atom hb ha he => rw [step_of_atom hb ha, executeAtom_of_effect he]
  | atomFails hb ha he => rw [step_of_atom hb ha, executeAtom_of_effect he]
  | enterLoop hb hc => rw [step_of_loopStart hb, executeLoopStart, if_neg hc]
  | skipLoop hb hc ht =>
      rw [step_of_loopStart hb, executeLoopStart, if_pos hc]
      simp only [ht]
  | unclosed hb hc ht =>
      rw [step_of_loopStart hb, executeLoopStart, if_pos hc]
      simp only [ht]
  | leaveLoop hb hc => rw [step_of_loopEnd hb, executeLoopEnd, if_pos hc]
  | repeatLoop hb hc ht =>
      rw [step_of_loopEnd hb, executeLoopEnd, if_neg hc]
      simp only [ht]
  | unopened hb hc ht =>
      rw [step_of_loopEnd hb, executeLoopEnd, if_neg hc]
      simp only [ht]

theorem exists_transition (m : Machine) : ∃ r m', Transition m r m' := by
  cases hb : m.program.code[m.ip]? with
  | none => exact ⟨_, _, .halted hb⟩
  | some b =>
      rcases boundary_or_atom b with rfl | rfl | ha
      · by_cases hc : m.device.cell = 0
        · cases ht : m.program.matchingClose m.ip with
          | none => exact ⟨_, _, .unclosed hb hc ht⟩
          | some target => exact ⟨_, _, .skipLoop hb hc ht⟩
        · exact ⟨_, _, .enterLoop hb hc⟩
      · by_cases hc : m.device.cell = 0
        · exact ⟨_, _, .leaveLoop hb hc⟩
        · cases ht : m.program.matchingOpen m.ip with
          | none => exact ⟨_, _, .unopened hb hc ht⟩
          | some target => exact ⟨_, _, .repeatLoop hb hc ht⟩
      · obtain ⟨r, d, he⟩ := m.device.exists_effect ha
        cases r with
        | ok => exact ⟨_, _, .atom hb ha he⟩
        | error f => exact ⟨_, _, .atomFails hb ha he⟩

theorem step_eq_iff {m m' : Machine} {r : Except ExecutionError Step} :
    m.step = (r, m') ↔ Transition m r m' := by
  constructor
  · intro h
    obtain ⟨r', m'', ht⟩ := m.exists_transition
    rw [step_of_transition ht] at h
    obtain ⟨rfl, rfl⟩ := Prod.mk.inj h
    exact ht
  · exact step_of_transition

theorem Transition.deterministic {m m₁ m₂ : Machine} {r₁ r₂ : Except ExecutionError Step}
    (h₁ : Transition m r₁ m₁) (h₂ : Transition m r₂ m₂) : r₁ = r₂ ∧ m₁ = m₂ :=
  Prod.mk.inj ((step_of_transition h₁).symm.trans (step_of_transition h₂))

theorem Transition.transferFails {m : Machine} {b : UInt8} {e : TransferError} {d : Device}
    (hb : m.program.code[m.ip]? = some b) (ha : IsAtom b)
    (he : Device.Effect (Instruction.ofByte? b) m.device (.error (.transfer e)) d) :
    Transition m (.error (.transfer m.ip e)) { m with device := d } :=
  .atomFails hb ha he

theorem Transition.commentary {m : Machine} {b : UInt8} (hb : m.program.code[m.ip]? = some b)
    (hi : isInstruction b = false) : Transition m (.ok .executed) m.advance := by
  have hn : Instruction.ofByte? b = none := by simpa [isInstruction] using hi
  have he : Device.Effect (Instruction.ofByte? b) m.device (.ok ()) m.device := by
    rw [hn]
    exact .commentary m.device
  have ht := Transition.atom hb (isAtom_of_not_isInstruction hi) he
  rw [hn] at ht
  exact ht

theorem Transition.program_eq {m m' : Machine} {r : Except ExecutionError Step}
    (h : Transition m r m') : m'.program = m.program := by
  cases h <;> rfl

theorem Transition.stepLimit_eq {m m' : Machine} {r : Except ExecutionError Step}
    (h : Transition m r m') : m'.stepLimit = m.stepLimit := by
  cases h <;> rfl

theorem Transition.steps_eq {m m' : Machine} (h : Transition m (.ok .executed) m') :
    m'.stats.steps = m.stats.steps + 1 := by
  cases h with
  | atom => exact RunStats.steps_afterAtom _ _
  | enterLoop => rfl
  | skipLoop => rfl
  | leaveLoop => rfl
  | repeatLoop => rfl

theorem Transition.exists_byte {m m' : Machine} (h : Transition m (.ok .executed) m') :
    ∃ b, m.program.code[m.ip]? = some b := by
  cases h with
  | atom hb => exact ⟨_, hb⟩
  | enterLoop hb => exact ⟨_, hb⟩
  | skipLoop hb => exact ⟨_, hb⟩
  | leaveLoop hb => exact ⟨_, hb⟩
  | repeatLoop hb => exact ⟨_, hb⟩

theorem Transition.eq_of_error {m m' : Machine} {e : ExecutionError}
    (h : Transition m (.error e) m') :
    m' = { m with device := m'.device } ∧ m'.device.tape = m.device.tape ∧
      e.position? = some m.ip := by
  cases h with
  | atomFails hb ha he =>
      exact ⟨rfl, he.tape_of_error, Failure.position?_located _ _⟩
  | unclosed => exact ⟨rfl, rfl, rfl⟩
  | unopened => exact ⟨rfl, rfl, rfl⟩

end Machine

end TapeLang
