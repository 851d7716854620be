import TapeLang.Machine.Config
import TapeLang.Proofs.Machine.Table
import TapeLang.Proofs.Program.Tree

namespace TapeLang

/-- The counters of a structured run, which never overflow. -/
structure Tally where
  steps : Nat
  jumps : Nat
  bytesRead : Nat
  bytesWritten : Nat
  sum_le : jumps + bytesRead + bytesWritten ≤ steps

namespace Tally

def zero : Tally :=
  ⟨0, 0, 0, 0, Nat.le_refl 0⟩

theorem sum_le_step (t : Tally) : t.jumps + t.bytesRead + t.bytesWritten ≤ t.steps + 1 :=
  Nat.le_succ_of_le t.sum_le

theorem sum_le_jump (t : Tally) : t.jumps + 1 + t.bytesRead + t.bytesWritten ≤ t.steps + 1 := by
  have := t.sum_le
  omega

theorem sum_le_atom (t : Tally) {read written : Nat} (h : read + written ≤ 1) :
    t.jumps + (t.bytesRead + read) + (t.bytesWritten + written) ≤ t.steps + 1 := by
  have := t.sum_le
  omega

theorem transfers_le (b : UInt8) :
    (if b = ','.toUInt8 then 1 else 0) + (if b = '.'.toUInt8 then 1 else 0) ≤ 1 := by
  by_cases h : b = ','.toUInt8
  · rw [h]
    decide
  · rw [if_neg h]
    split <;> decide

def afterAtom (t : Tally) (b : UInt8) : Tally :=
  ⟨t.steps + 1, t.jumps, t.bytesRead + if b = ','.toUInt8 then 1 else 0,
    t.bytesWritten + if b = '.'.toUInt8 then 1 else 0, t.sum_le_atom (transfers_le b)⟩

def afterStep (t : Tally) : Tally :=
  ⟨t.steps + 1, t.jumps, t.bytesRead, t.bytesWritten, t.sum_le_step⟩

def afterJump (t : Tally) : Tally :=
  ⟨t.steps + 1, t.jumps + 1, t.bytesRead, t.bytesWritten, t.sum_le_jump⟩

def toStats (t : Tally) : RunStats :=
  ⟨.ofNat t.steps, .ofNat t.jumps, .ofNat t.bytesRead, .ofNat t.bytesWritten⟩

@[simp]
theorem toStats_afterAtom (t : Tally) (b : UInt8) :
    (t.afterAtom b).toStats = t.toStats.afterAtom (Instruction.ofByte? b) := by
  cases h : Instruction.ofByte? b with
  | none =>
      have hb := Device.ofByte?_eq_none_iff.1 h
      simp only [List.map_cons, List.mem_cons, not_or] at hb
      simp [afterAtom, toStats, RunStats.afterAtom, UInt64.ofNat_add, hb]
  | some i =>
      obtain rfl := Instruction.ofByte?_eq_some_iff.1 h
      cases i <;> simp +decide [afterAtom, toStats, RunStats.afterAtom, UInt64.ofNat_add]

@[simp]
theorem toStats_afterStep (t : Tally) : t.afterStep.toStats = t.toStats.afterStep := by
  simp [afterStep, toStats, RunStats.afterStep, UInt64.ofNat_add]

@[simp]
theorem toStats_afterJump (t : Tally) : t.afterJump.toStats = t.toStats.afterJump := by
  simp [afterJump, toStats, RunStats.afterJump, UInt64.ofNat_add]

theorem toNat_toStats {t : Tally} (h : t.steps < UInt64.size) :
    t.toStats.steps.toNat = t.steps ∧ t.toStats.jumps.toNat = t.jumps ∧
      t.toStats.bytesRead.toNat = t.bytesRead ∧
      t.toStats.bytesWritten.toNat = t.bytesWritten := by
  have hs := t.sum_le
  refine ⟨?_, ?_, ?_, ?_⟩ <;> exact UInt64.toNat_ofNat_of_lt' (by omega)

end Tally

namespace Tree

structure State where
  device : Device
  tally : Tally

inductive Outcome where
  | finished (s : State)
  | failed (position : Nat) (failure : Failure) (s : State)

def Outcome.state : Outcome → State
  | .finished s => s
  | .failed _ _ s => s

/-- What is left to evaluate: a tree, or a pass of the body of a loop and all that follows it. -/
inductive Task where
  | tree (t : Tree)
  | pass (body rest : Tree)

/-- The structured meaning of trees. The position is that of the tree in the flat program; in a
pass it is that of the loop. -/
inductive Evaluates : Nat → Task → State → Outcome → Prop
  | done {position : Nat} {s : State} : Evaluates position (.tree .done) s (.finished s)
  | atom {position : Nat} {a : Atom} {rest : Tree} {s : State} {d : Device} {o : Outcome}
      (he : s.device.Acts a.val (.ok ()) d)
      (hr : Evaluates (position + 1) (.tree rest) ⟨d, s.tally.afterAtom a.val⟩ o) :
      Evaluates position (.tree (.atom a rest)) s o
  | atomFails {position : Nat} {a : Atom} {rest : Tree} {s : State} {d : Device} {f : Failure}
      (he : s.device.Acts a.val (.error f) d) :
      Evaluates position (.tree (.atom a rest)) s (.failed position f ⟨d, s.tally⟩)
  | skip {position : Nat} {body rest : Tree} {s : State} {o : Outcome}
      (hc : s.device.tape.Shows 0)
      (hr : Evaluates (position + body.size + 2) (.tree rest) ⟨s.device, s.tally.afterJump⟩ o) :
      Evaluates position (.tree (.loop body rest)) s o
  | enter {position : Nat} {body rest : Tree} {s : State} {o : Outcome}
      (hc : ¬ s.device.tape.Shows 0)
      (hp : Evaluates position (.pass body rest) ⟨s.device, s.tally.afterStep⟩ o) :
      Evaluates position (.tree (.loop body rest)) s o
  | bodyFails {position stop : Nat} {body rest : Tree} {s s' : State} {f : Failure}
      (hb : Evaluates (position + 1) (.tree body) s (.failed stop f s')) :
      Evaluates position (.pass body rest) s (.failed stop f s')
  | leave {position : Nat} {body rest : Tree} {s s' : State} {o : Outcome}
      (hb : Evaluates (position + 1) (.tree body) s (.finished s'))
      (hc : s'.device.tape.Shows 0)
      (hr : Evaluates (position + body.size + 2) (.tree rest)
        ⟨s'.device, s'.tally.afterStep⟩ o) :
      Evaluates position (.pass body rest) s o
  | again {position : Nat} {body rest : Tree} {s s' : State} {o : Outcome}
      (hb : Evaluates (position + 1) (.tree body) s (.finished s'))
      (hc : ¬ s'.device.tape.Shows 0)
      (hp : Evaluates position (.pass body rest) ⟨s'.device, s'.tally.afterJump⟩ o) :
      Evaluates position (.pass body rest) s o

namespace Task

def whole : Task → Tree
  | tree t => t
  | pass body rest => loop body rest

def lead : Task → Nat
  | tree _ => 0
  | pass _ _ => 1

theorem lead_le (task : Task) : task.lead ≤ 1 := by
  cases task
  · exact Nat.zero_le 1
  · exact Nat.le_refl 1

end Task

theorem Evaluates.failed_at {p : Program} {position stop : Nat} {task : Task} {s s' : State}
    {f : Failure} (h : Evaluates position task s (.failed stop f s'))
    (hp : p.Contains position task.whole) :
    ∃ (a : Atom) (d : Device), p.code[stop]? = some a.val ∧
      d.Acts a.val (.error f) s'.device := by
  generalize ho : Outcome.failed stop f s' = o at h
  induction h with
  | done => cases ho
  | atom he hr ih => exact ih hp.rest_atom ho
  | atomFails he =>
      cases ho
      exact ⟨_, _, hp.byte_atom, he⟩
  | skip hc hr ih => exact ih hp.rest_loop ho
  | enter hc hp' ih => exact ih hp ho
  | bodyFails hb ih =>
      cases ho
      exact ih hp.body_loop rfl
  | leave hb hc hr _ ih => exact ih hp.rest_loop ho
  | again hb hc hp' _ ih => exact ih hp ho

end Tree

end TapeLang
