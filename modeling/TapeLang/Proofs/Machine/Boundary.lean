import TapeLang.Proofs.Machine.Reachable

namespace TapeLang.Machine

def PastBoundary (m : Machine) : Prop :=
  ∀ i, m.ip = i + 1 →
    (m.program.code[i]? = some Instruction.loopEnd.byte → m.device.cell = 0) ∧
      (m.program.code[i]? = some Instruction.loopStart.byte → m.device.cell ≠ 0)

section

variable {m m' : Machine} {i : Nat}

theorem pastBoundary_of_byte {b : UInt8} (hip : m.ip = i + 1)
    (hb : m.program.code[i]? = some b) (hend : b = Instruction.loopEnd.byte → m.device.cell = 0)
    (hstart : b = Instruction.loopStart.byte → m.device.cell ≠ 0) : m.PastBoundary := by
  intro j hj
  obtain rfl : j = i := Nat.succ.inj (hj.symm.trans hip)
  rw [hb, Option.some.injEq, Option.some.injEq]
  exact ⟨hend, hstart⟩

theorem pastBoundary_of_loopEnd (hip : m.ip = i + 1)
    (hb : m.program.code[i]? = some Instruction.loopEnd.byte) (hc : m.device.cell = 0) :
    m.PastBoundary :=
  pastBoundary_of_byte hip hb (fun _ => hc) fun h => absurd h loopEnd_ne_loopStart

theorem pastBoundary_of_loopStart (hip : m.ip = i + 1)
    (hb : m.program.code[i]? = some Instruction.loopStart.byte) (hc : m.device.cell ≠ 0) :
    m.PastBoundary :=
  pastBoundary_of_byte hip hb (fun h => absurd h loopStart_ne_loopEnd) fun _ => hc

theorem Transition.pastBoundary (h : Transition m (.ok .executed) m')
    (hip : m.ip ≤ m.program.size) : m'.PastBoundary := by
  cases h with
  | atom hb ha =>
      exact pastBoundary_of_byte rfl hb (fun h => absurd h ha.2) fun h => absurd h ha.1
  | enterLoop hb hc => exact pastBoundary_of_loopStart rfl hb hc
  | skipLoop _ hc ht =>
      exact pastBoundary_of_loopEnd rfl (Program.byte_of_matchingClose ht) hc
  | leaveLoop hb hc => exact pastBoundary_of_loopEnd rfl hb hc
  | repeatLoop _ hc ht =>
      exact pastBoundary_of_loopStart rfl (Program.byte_of_matchingOpen hip ht) hc

theorem PastBoundary.of_error {e : ExecutionError} (h : m.PastBoundary)
    (ht : Transition m (.error e) m') : m'.PastBoundary := by
  obtain ⟨hm, htape, -⟩ := ht.eq_of_error
  intro j hj
  have hcell : m'.device.cell = m.device.cell := by rw [Device.cell, htape, Device.cell]
  rw [hcell, ht.program_eq]
  rw [hm] at hj
  exact h j hj

theorem Transition.enters_iff (h : Transition m (.ok .executed) m')
    (hb : m.program.code[m.ip]? = some Instruction.loopStart.byte) :
    m'.ip = m.ip + 1 ↔ m'.device.cell ≠ 0 := by
  cases h with
  | atom hb' ha => exact absurd (Option.some.inj (hb'.symm.trans hb)) ha.1
  | enterLoop _ hc => exact iff_of_true rfl hc
  | @skipLoop target _ hc ht =>
      have hlt := Program.lt_of_matchingClose ht
      refine iff_of_false ?_ (not_not_intro hc)
      change ¬ target + 1 = m.ip + 1
      omega
  | leaveLoop hb' =>
      exact absurd (Option.some.inj (hb'.symm.trans hb)) loopEnd_ne_loopStart
  | repeatLoop hb' =>
      exact absurd (Option.some.inj (hb'.symm.trans hb)) loopEnd_ne_loopStart

theorem Transition.repeats_iff (h : Transition m (.ok .executed) m')
    (hb : m.program.code[m.ip]? = some Instruction.loopEnd.byte) :
    m'.ip ≤ m.ip ↔ m'.device.cell ≠ 0 := by
  have hip : m.ip ≤ m.program.size := Nat.le_of_lt (Array.getElem?_eq_some_iff.1 hb).1
  cases h with
  | atom hb' ha => exact absurd (Option.some.inj (hb'.symm.trans hb)) ha.2
  | enterLoop hb' =>
      exact absurd (Option.some.inj (hb'.symm.trans hb)) loopStart_ne_loopEnd
  | skipLoop hb' =>
      exact absurd (Option.some.inj (hb'.symm.trans hb)) loopStart_ne_loopEnd
  | leaveLoop _ hc => exact iff_of_false (Nat.not_succ_le_self m.ip) (not_not_intro hc)
  | @repeatLoop target _ hc ht => exact iff_of_true (Program.lt_of_matchingOpen hip ht) hc

end

/-- Where a jump lands is known for an instruction pointer inside the program only, so the two
are kept together. -/
theorem pastBoundary_step {m m' : Machine} {r : Except ExecutionError Step}
    (h : m.ip ≤ m.program.size ∧ m.PastBoundary) (ht : Transition m r m') :
    m'.ip ≤ m'.program.size ∧ m'.PastBoundary := by
  refine ⟨ht.program_eq ▸ ht.ip_le h.1, ?_⟩
  rcases r with e | _ | _
  · exact h.2.of_error ht
  · exact ht.pastBoundary h.1
  · obtain ⟨-, rfl⟩ := step_eq_halted_iff.1 (step_of_transition ht)
    exact h.2

theorem loop_boundary_invariant (p : Program) (config : Config) (input : Source) (output : Sink)
    (calls : List Call) :
    let m := (start p config input output).after calls
    (0 < m.ip →
      (p.code[m.ip - 1]? = some Instruction.loopEnd.byte → m.device.cell = 0) ∧
      (p.code[m.ip - 1]? = some Instruction.loopStart.byte → m.device.cell ≠ 0)) ∧
    (∀ fuel stats m', m.run fuel = (some (.ok stats), m') →
      p.code.back? = some Instruction.loopEnd.byte → m'.device.cell = 0) ∧
    ∀ m', m.step = (.ok .executed, m') →
      (∀ i, p.code[i]? = some Instruction.loopStart.byte → m'.ip = i + 1 →
        m'.device.cell ≠ 0) ∧
      (p.code[m.ip]? = some Instruction.loopStart.byte →
        (m'.ip = m.ip + 1 ↔ m'.device.cell ≠ 0)) ∧
      (p.code[m.ip]? = some Instruction.loopEnd.byte →
        (m'.ip ≤ m.ip ↔ m'.device.cell ≠ 0)) := by
  intro m
  have hp : m.program = p := program_after _ calls
  have hstart : (start p config input output).PastBoundary := nofun
  obtain ⟨hip, hbound⟩ : m.ip ≤ m.program.size ∧ m.PastBoundary :=
    after_invariant pastBoundary_step id ⟨Nat.zero_le _, hstart⟩ calls
  refine ⟨?_, ?_, ?_⟩
  · intro hpos
    have h := hbound (m.ip - 1) (Nat.succ_pred_eq_of_pos hpos).symm
    rwa [hp] at h
  · -- A run that halts has moved past the last byte.
    intro fuel stats m' hrun hlast
    have hend := ip_eq_size_of_run hip hrun
    have h := (run_invariant pastBoundary_step id ⟨hip, hbound⟩ fuel).2 (p.size - 1)
    rw [hrun, (Run.of_run hrun).program_eq, hp, hend, hp] at h
    rw [Array.back?_eq_getElem?] at hlast
    have hlt : p.size - 1 < p.size := (Array.getElem?_eq_some_iff.1 hlast).1
    exact (h (by omega)).1 hlast
  · intro m' hs
    have ht := step_eq_iff.1 hs
    have h := ht.pastBoundary hip
    rw [← hp]
    refine ⟨?_, ht.enters_iff, ht.repeats_iff⟩
    intro i hb hi
    rw [← ht.program_eq] at hb
    exact (h i hi).2 hb

end TapeLang.Machine
