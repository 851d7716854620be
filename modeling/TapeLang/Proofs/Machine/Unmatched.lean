import TapeLang.Proofs.Interpretation
import TapeLang.Proofs.Machine.Run
import TapeLang.Proofs.Program.Resolution

namespace TapeLang

namespace Machine

def Unmatched (m : Machine) : Prop :=
  (m.program.code[m.ip]? = some Instruction.loopStart.byte ∧ m.device.cell = 0 ∧
      m.program.matchingClose m.ip = none) ∨
    (m.program.code[m.ip]? = some Instruction.loopEnd.byte ∧ m.device.cell ≠ 0 ∧
      m.program.matchingOpen m.ip = none)

theorem unmatched_of_transition {m m' : Machine} {position : Nat}
    (h : Transition m (.error (.unmatchedDelimiter position)) m') :
    m' = m ∧ m.ip = position ∧ m.Unmatched := by
  generalize he : ExecutionError.unmatchedDelimiter position = e at h
  cases h with
  | @atomFails b f d hb ha hf => cases f <;> cases he
  | unclosed hb hc ht =>
      cases he
      exact ⟨rfl, rfl, .inl ⟨hb, hc, ht⟩⟩
  | unopened hb hc ht =>
      cases he
      exact ⟨rfl, rfl, .inr ⟨hb, hc, ht⟩⟩

theorem unmatched_of_run {m m' : Machine} {bytes : List UInt8} {position : Nat}
    (h : Run m bytes (.error (.unmatchedDelimiter position)) m') :
    m'.ip = position ∧ m'.Unmatched := by
  generalize hr : Except.error (ExecutionError.unmatchedDelimiter position) = r at h
  induction h with
  | stop hs =>
      cases hs with
      | halt => cases hr
      | limit => cases hr
      | fail hl ht =>
          cases hr
          obtain ⟨rfl, hip, hu⟩ := unmatched_of_transition ht
          exact ⟨hip, hu⟩
  | step hl hb ht _ ih => exact ih hr

def Fails (m : Machine) (e : ExecutionError) (m' : Machine) : Prop :=
  m.step = (.error e, m') ∨ ∃ fuel, m.run fuel = (some (.error e), m')

theorem unmatched_of_fails {m m' : Machine} {position : Nat}
    (h : m.Fails (.unmatchedDelimiter position) m') :
    m'.program = m.program ∧ m'.ip = position ∧ m'.Unmatched := by
  rcases h with hs | ⟨fuel, hr⟩
  · obtain ⟨rfl, hip, hu⟩ := unmatched_of_transition (step_eq_iff.1 hs)
    exact ⟨rfl, hip, hu⟩
  · have run := Run.of_run hr
    exact ⟨run.program_eq, unmatched_of_run run⟩

theorem Unmatched.of_lenient {m : Machine} (h : m.program.validate .lenient = .ok ())
    (hu : m.Unmatched) :
    m.program.code[m.ip]? = some Instruction.loopStart.byte ∧ m.device.cell = 0 ∧
      m.ip ∈ m.program.danglingStarts := by
  rcases hu with ⟨hb, hc, ht⟩ | ⟨hb, _, ht⟩
  · exact ⟨hb, hc, Program.mem_danglingStarts.2 ⟨hb, ht⟩⟩
  · have hsome := Program.surplus_eq_zero_iff.1 (Program.validate_lenient_iff.1 h) m.ip hb
    rw [ht] at hsome
    cases hsome

theorem not_unmatched_of_strict {m : Machine} (h : m.program.validate .strict = .ok ()) :
    ¬ m.Unmatched := by
  intro hu
  obtain ⟨hb, -, hd⟩ := hu.of_lenient (Program.validate_lenient_of_strict h)
  have hsome := Program.unclosed_eq_zero_iff.1 (Program.validate_strict_iff.1 h).2 m.ip hb
  rw [(Program.mem_danglingStarts.1 hd).2] at hsome
  cases hsome

theorem not_fails_unmatched_of_strict {m m' : Machine} {position : Nat}
    (h : m.program.validate .strict = .ok ()) : ¬ m.Fails (.unmatchedDelimiter position) m' := by
  intro hf
  obtain ⟨hp, -, hu⟩ := unmatched_of_fails hf
  rw [← hp] at h
  exact not_unmatched_of_strict h hu

end Machine

open Instruction in
theorem validation_agrees_with_jumps (p : Program) :
    (p.validate .strict = .ok () ↔
      (∀ i, p.code[i]? = some loopStart.byte → (p.matchingClose i).isSome = true) ∧
        ∀ j, p.code[j]? = some loopEnd.byte → (p.matchingOpen j).isSome = true) ∧
    (p.validate .strict = .ok () → ∀ config input output calls position m',
      ¬ ((Machine.start p config input output).after calls).Fails
        (.unmatchedDelimiter position) m') ∧
    (∀ fuel source input output config position, config.validation = .strict →
      (interpret fuel source input output config).result ≠
        some (.error (.execution (.unmatchedDelimiter position)))) ∧
    (∀ fuel config jobs position, config.validation = .strict →
      ∀ report ∈ runBatch fuel config jobs,
        report.result ≠ some (.error (.execution (.unmatchedDelimiter position)))) ∧
    (p.validate .lenient = .ok () →
      (∀ config input output calls position m',
        ((Machine.start p config input output).after calls).Fails
            (.unmatchedDelimiter position) m' →
          p.code[position]? = some loopStart.byte ∧ m'.device.cell = 0 ∧ m'.ip = position ∧
            position ∈ p.danglingStarts) ∧
      (∀ i, i ∈ p.danglingStarts ↔
        p.code[i]? = some loopStart.byte ∧ p.matchingClose i = none) ∧
      p.danglingStarts.Nodup ∧
      (p.validate .strict = .ok () → p.danglingStarts.length = 0) ∧
      (∀ count, p.validate .strict = .error (.unclosed count) →
        p.danglingStarts.length = count) ∧
      ∀ j, p.code[j]? = some loopEnd.byte → (p.matchingOpen j).isSome = true) := by
  refine ⟨?_, ?_, ?_, ?_, ?_⟩
  · rw [Program.validate_strict_iff, Program.surplus_eq_zero_iff, Program.unclosed_eq_zero_iff,
      and_comm]
  · intro h config input output calls position m'
    apply Machine.not_fails_unmatched_of_strict
    rw [Machine.program_after]
    exact h
  · intro fuel source input output config position hc h
    obtain ⟨program, m', hv, hr⟩ := exists_run_of_interpret h
    rw [hc] at hv
    exact Machine.not_fails_unmatched_of_strict hv (.inr ⟨fuel, hr⟩)
  · intro fuel config jobs position hc report hmem h
    obtain ⟨job, -, rfl⟩ := List.mem_map.1 hmem
    obtain ⟨m', hv, hr⟩ := exists_run_of_job h
    rw [hc] at hv
    exact Machine.not_fails_unmatched_of_strict hv (.inr ⟨fuel, hr⟩)
  · intro h
    refine ⟨?_, fun i => Program.mem_danglingStarts, List.nodup_range.filter _, ?_, ?_, ?_⟩
    · intro config input output calls position m' hf
      obtain ⟨hp, rfl, hu⟩ := Machine.unmatched_of_fails hf
      rw [Machine.program_after] at hp
      have hpm : m'.program = p := hp
      obtain ⟨hb, hc, hd⟩ := hu.of_lenient (by rw [hpm]; exact h)
      rw [hpm] at hb hd
      exact ⟨hb, hc, rfl, hd⟩
    · intro hs
      rw [Program.length_danglingStarts]
      exact (Program.validate_strict_iff.1 hs).2
    · intro count hs
      rw [Program.length_danglingStarts]
      exact Program.unclosed_of_validate_strict hs
    · exact Program.surplus_eq_zero_iff.1 (Program.validate_lenient_iff.1 h)

end TapeLang
