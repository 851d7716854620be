import TapeLang.Proofs.Machine.Stepping

namespace TapeLang.Machine

/-- The machines from which a run executes a byte, oldest first. -/
def runHistory : (fuel : Nat) → Machine → List Machine
  | 0, _ => []
  | fuel + 1, m =>
      if m.isHalted then []
      else
        match m.limitReached? with
        | some _ => []
        | none =>
            match m.step with
            | (.ok _, m') => m :: runHistory fuel m'
            | (.error _, _) => []

def callHistory (m : Machine) : Call → List Machine
  | .step =>
      match m.step with
      | (.ok .executed, _) => [m]
      | _ => []
  | .run fuel => m.runHistory fuel

def history (m : Machine) : List Call → List Machine
  | [] => []
  | c :: calls => m.callHistory c ++ (m.call c).history calls

theorem runHistory_of_stops {m m' : Machine} {r : Except ExecutionError RunStats}
    (h : Stops m r m') (fuel : Nat) : m.runHistory (fuel + 1) = [] := by
  unfold runHistory
  cases h with
  | halt hh => simp [hh]
  | limit hh hl => simp [hh, hl]
  | fail hl ht => simp [ht.not_halted, hl, step_of_transition ht]

theorem runHistory_of_executed {m m₁ : Machine} (hl : m.limitReached? = none)
    (ht : Transition m (.ok .executed) m₁) (fuel : Nat) :
    m.runHistory (fuel + 1) = m :: m₁.runHistory fuel := by
  obtain ⟨b, hb⟩ := ht.exists_byte
  simp [runHistory, isHalted_of_byte hb, hl, step_of_transition ht]

section Invariant

variable {P : List Machine → Machine → Prop}
  (hexecuted : ∀ {past m m'}, P past m → Transition m (.ok .executed) m' → P (past ++ [m]) m')
  (hfailed : ∀ {past m m' e}, P past m → Transition m (.error e) m' → P past m')
  (hrecord : ∀ {past m e}, P past m → P past (m.record e))
include hexecuted hfailed hrecord

theorem runHistory_invariant {past : List Machine} {m : Machine} (h : P past m) (fuel : Nat) :
    P (past ++ m.runHistory fuel) (m.run fuel).2 := by
  induction fuel generalizing past m with
  | zero => rwa [runHistory, List.append_nil]
  | succ fuel ih =>
      rcases m.stops_or_executes with ⟨r, m', hs⟩ | ⟨hl, m₁, ht⟩
      · rw [runHistory_of_stops hs, hs.run_succ, List.append_nil]
        cases hs with
        | halt => exact hrecord h
        | limit => exact hrecord h
        | fail _ ht => exact hfailed h ht
      · rw [runHistory_of_executed hl ht, run_succ_of_executed fuel hl ht, ← List.singleton_append,
          ← List.append_assoc]
        exact ih (hexecuted h ht)

theorem callHistory_invariant {past : List Machine} {m : Machine} (h : P past m) (c : Call) :
    P (past ++ m.callHistory c) (m.call c) := by
  cases c with
  | step =>
      obtain ⟨r, m', ht⟩ := m.exists_transition
      rw [callHistory, call, step_of_transition ht]
      rcases r with e | _ | _
      · rw [List.append_nil]
        exact hfailed h ht
      · exact hexecuted h ht
      · obtain ⟨-, rfl⟩ := step_eq_halted_iff.1 (step_of_transition ht)
        rwa [List.append_nil]
  | run fuel => exact runHistory_invariant (P := P) hexecuted hfailed hrecord h fuel

theorem history_invariant {past : List Machine} {m : Machine} (h : P past m)
    (calls : List Call) : P (past ++ m.history calls) (m.after calls) := by
  induction calls generalizing past m with
  | nil => rwa [history, List.append_nil]
  | cons c calls ih =>
      rw [history, ← List.append_assoc]
      exact ih (callHistory_invariant (P := P) hexecuted hfailed hrecord h c)

end Invariant

end TapeLang.Machine
