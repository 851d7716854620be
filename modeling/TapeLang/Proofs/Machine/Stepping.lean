import TapeLang.Proofs.Machine.Run

namespace TapeLang.Machine

/-- The machine after `count` executed steps, made whatever the step limit; none when one of them
halts or fails. -/
def stepped : (count : Nat) → Machine → Option Machine
  | 0, m => some m
  | count + 1, m =>
      match m.step with
      | (.ok .executed, m') => stepped count m'
      | _ => none

variable {m m₁ m' : Machine} {count : Nat}

theorem stepped_succ (ht : Transition m (.ok .executed) m₁) (count : Nat) :
    m.stepped (count + 1) = m₁.stepped count := by
  simp only [stepped, step_of_transition ht]

theorem exists_transition_of_stepped (h : m.stepped (count + 1) = some m') :
    ∃ m₁, Transition m (.ok .executed) m₁ ∧ m₁.stepped count = some m' := by
  obtain ⟨r, m₁, ht⟩ := m.exists_transition
  simp only [stepped, step_of_transition ht] at h
  split at h
  · rename_i hr
    obtain ⟨rfl, rfl⟩ := Prod.mk.inj hr
    exact ⟨_, ht, h⟩
  · cases h

theorem steps_of_stepped (h : m.stepped count = some m') :
    ∃ bytes, Steps m bytes m' ∧ bytes.length = count := by
  induction count generalizing m with
  | zero =>
      obtain rfl := Option.some.inj h
      exact ⟨[], .refl m, rfl⟩
  | succ count ih =>
      obtain ⟨m₁, ht, h₁⟩ := exists_transition_of_stepped h
      obtain ⟨b, hb⟩ := ht.exists_byte
      obtain ⟨bytes, hs, hl⟩ := ih h₁
      exact ⟨b :: bytes, .cons hb ht hs, by rw [List.length_cons, hl]⟩

theorem program_of_stepped (h : m.stepped count = some m') : m'.program = m.program := by
  obtain ⟨bytes, hs, -⟩ := steps_of_stepped h
  exact hs.program_eq

/-- Steps made one by one stop after `count` of them: the next one is no execution, and leaves
`m'`. -/
def StopsAfter (m : Machine) (count : Nat) (r : Except ExecutionError Step) (m' : Machine) : Prop :=
  r ≠ .ok .executed ∧ ∃ m₁, m.stepped count = some m₁ ∧ m₁.step = (r, m')

theorem StopsAfter.later {r : Except ExecutionError Step} (ht : Transition m (.ok .executed) m₁)
    (h : m₁.StopsAfter count r m') : m.StopsAfter (count + 1) r m' := by
  obtain ⟨hr, m₂, h₂, hs⟩ := h
  exact ⟨hr, m₂, (stepped_succ ht count).trans h₂, hs⟩

theorem stepped_or_stops (m : Machine) (count : Nat) :
    (∃ m', m.stepped count = some m') ∨ ∃ k < count, ∃ r m', m.StopsAfter k r m' := by
  induction count generalizing m with
  | zero => exact .inl ⟨m, rfl⟩
  | succ count ih =>
      obtain ⟨r, m₁, ht⟩ := m.exists_transition
      by_cases hr : r = .ok .executed
      · subst hr
        rcases ih m₁ with ⟨m', h⟩ | ⟨k, hk, r, m', h⟩
        · exact .inl ⟨m', (stepped_succ ht count).trans h⟩
        · exact .inr ⟨k + 1, Nat.succ_lt_succ hk, r, m', h.later ht⟩
      · exact .inr ⟨0, Nat.succ_pos count, r, m₁, hr, m, rfl, step_of_transition ht⟩

theorem StopsAfter.isHalted (h : m.StopsAfter count (.ok .halted) m') :
    m.stepped count = some m' ∧ m'.isHalted = true := by
  obtain ⟨-, m₁, h₁, hs⟩ := h
  obtain ⟨hh, rfl⟩ := step_eq_halted_iff.1 hs
  exact ⟨h₁, hh⟩

end TapeLang.Machine
