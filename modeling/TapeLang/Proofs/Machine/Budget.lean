import TapeLang.Proofs.Machine.Stepping

namespace TapeLang.Machine

def limited (m : Machine) (limit : Option UInt64) : Machine :=
  { m with stepLimit := limit }

def budget (m : Machine) (limit : UInt64) : Nat :=
  limit.toNat - m.stats.steps.toNat

/-- The limit lets a machine make `count` steps and then answer `r`: a halt needs no step of its
own, a failure does. -/
def Affords (m : Machine) (limit : UInt64) (count : Nat) (r : Except ExecutionError Step) : Prop :=
  m.stats.steps.toNat + count < limit.toNat ∨
    r = .ok .halted ∧ (m.stats.steps.toNat + count = limit.toNat ∨ count = 0)

section

variable {m m₁ m' : Machine} {count : Nat} {limit : UInt64} {r : Except ExecutionError Step}

theorem Transition.limited (h : Transition m r m') (limit : Option UInt64) :
    Transition (m.limited limit) r (m'.limited limit) := by
  cases h with
  | halted hb => exact .halted hb
  | atom hb ha he => exact .atom hb ha he
  | atomFails hb ha he => exact .atomFails hb ha he
  | enterLoop hb hc => exact .enterLoop hb hc
  | skipLoop hb hc ht => exact .skipLoop hb hc ht
  | unclosed hb hc ht => exact .unclosed hb hc ht
  | leaveLoop hb hc => exact .leaveLoop hb hc
  | repeatLoop hb hc ht => exact .repeatLoop hb hc ht
  | unopened hb hc ht => exact .unopened hb hc ht

theorem stepped_limited (m : Machine) (limit : Option UInt64) (count : Nat) :
    (m.limited limit).stepped count = (m.stepped count).map (·.limited limit) := by
  induction count generalizing m with
  | zero => rfl
  | succ count ih =>
      obtain ⟨r, m₁, ht⟩ := m.exists_transition
      simp only [stepped, step_of_transition ht, step_of_transition (ht.limited limit)]
      split
      · rename_i hr
        obtain ⟨rfl, rfl⟩ := Prod.mk.inj hr
        exact ih m₁
      · rename_i hr
        split
        · rename_i hr'
          obtain ⟨rfl, rfl⟩ := Prod.mk.inj hr'
          exact absurd rfl (hr _)
        · rfl

theorem limitReached?_of_lt (h : m.stats.steps.toNat < limit.toNat) :
    (m.limited (some limit)).limitReached? = none := by
  rw [limitReached?_eq_none_iff]
  rintro _ ⟨⟩
  exact UInt64.lt_iff_toNat_lt.2 h

theorem limitReached?_of_le (h : limit.toNat ≤ m.stats.steps.toNat) :
    (m.limited (some limit)).limitReached? = some limit := by
  have hle : limit ≤ m.stats.steps := UInt64.le_iff_toNat_le.2 h
  exact Option.filter_some_pos (decide_eq_true hle)

theorem budget_of_executed (ht : Transition m (.ok .executed) m₁) (hb : 0 < m.budget limit) :
    m₁.budget limit + 1 = m.budget limit := by
  have hlt := limit.toNat_lt_size
  unfold budget at *
  rw [ht.steps_eq, UInt64.toNat_add]
  change limit.toNat - (m.stats.steps.toNat + 1) % UInt64.size + 1 = _
  rw [Nat.mod_eq_of_lt (by omega)]
  omega

theorem run_of_stepped (h : m.stepped count = some m₁) (hc : count ≤ m.budget limit) :
    m₁.budget limit + count = m.budget limit ∧
      ∀ fuel, (m.limited (some limit)).run (count + fuel) = (m₁.limited (some limit)).run fuel := by
  induction count generalizing m with
  | zero =>
      obtain rfl := Option.some.inj h
      exact ⟨rfl, fun fuel => by rw [Nat.zero_add]⟩
  | succ count ih =>
      obtain ⟨m₂, ht, h₂⟩ := exists_transition_of_stepped h
      have hbudget := budget_of_executed ht (Nat.lt_of_lt_of_le (Nat.succ_pos count) hc)
      obtain ⟨hrest, hrun⟩ := ih h₂ (by omega)
      refine ⟨by omega, fun fuel => ?_⟩
      have hlt : m.stats.steps.toNat < limit.toNat := by unfold budget at hc; omega
      rw [Nat.succ_add, run_succ_of_executed _ (limitReached?_of_lt hlt) (ht.limited _), hrun]

theorem run_of_stops {r : Except ExecutionError RunStats} (h : m.stepped count = some m₁)
    (hc : count ≤ m.budget limit) (hs : Stops (m₁.limited (some limit)) r m') {fuel : Nat}
    (hf : m.budget limit < fuel) : (m.limited (some limit)).run fuel = (some r, m') := by
  obtain ⟨more, rfl⟩ : ∃ more, fuel = count + (more + 1) := ⟨fuel - count - 1, by omega⟩
  rw [(run_of_stepped h hc).2, hs.run_succ]

theorem Affords.count_le (h : m.Affords limit count r) : count ≤ m.budget limit := by
  unfold Affords at h
  unfold budget
  omega

theorem run_of_halted (h : m.StopsAfter count (.ok .halted) m')
    (ha : m.Affords limit count (.ok .halted)) {fuel : Nat} (hf : m.budget limit < fuel) :
    (m.limited (some limit)).run fuel =
      (some (.ok m'.stats), (m'.limited (some limit)).record (.programHalted m'.stats)) := by
  obtain ⟨hm, hh⟩ := h.isHalted
  exact run_of_stops hm ha.count_le (.halt hh) hf

theorem run_of_failed {e : ExecutionError} (h : m.StopsAfter count (.error e) m')
    (ha : m.Affords limit count (.error e)) {fuel : Nat} (hf : m.budget limit < fuel) :
    (m.limited (some limit)).run fuel = (some (.error e), m'.limited (some limit)) := by
  obtain ⟨-, m₁, hm, hs⟩ := h
  have hlt : m.stats.steps.toNat + count < limit.toNat := by simpa [Affords] using ha
  have hrest := (run_of_stepped hm ha.count_le).1
  have hl : m₁.stats.steps.toNat < limit.toNat := by unfold budget at hrest; omega
  have ht := (step_eq_iff.1 hs).limited (some limit)
  exact run_of_stops hm ha.count_le (.fail (limitReached?_of_lt hl) ht) hf

theorem run_of_exhausted (h : ∀ count r m', m.StopsAfter count r m' → ¬ m.Affords limit count r) :
    ∃ m₁, m.stepped (m.budget limit) = some m₁ ∧ ∀ fuel, m.budget limit < fuel →
      (m.limited (some limit)).run fuel =
        (some (.error (.stepLimitExceeded limit)),
          (m₁.limited (some limit)).record (.stepLimitReached limit m₁.ip)) := by
  rcases m.stepped_or_stops (m.budget limit) with ⟨m₁, hm⟩ | ⟨count, hc, r, m', hs⟩
  · refine ⟨m₁, hm, fun fuel hf => run_of_stops hm (Nat.le_refl _) (.limit ?_ ?_) hf⟩
    · -- A halt with the budget just spent would be afforded.
      by_contra hh
      have hh : m₁.isHalted = true := Bool.not_eq_false _ ▸ hh
      have hs : m.StopsAfter (m.budget limit) (.ok .halted) m₁ :=
        ⟨nofun, m₁, hm, step_eq_halted_iff.2 ⟨hh, rfl⟩⟩
      refine h _ _ _ hs (.inr ⟨rfl, ?_⟩)
      unfold budget
      omega
    · apply limitReached?_of_le
      have hrest := (run_of_stepped hm (Nat.le_refl _)).1
      unfold budget at hrest
      omega
  · refine absurd (.inl ?_) (h count r m' hs)
    unfold budget at hc
    omega

section Widening

variable {wider : Option UInt64} (hm : m.stepLimit = some limit)
  (hw : ∀ l, wider = some l → limit ≤ l)
include hm hw

theorem limitReached?_limited (hl : m.limitReached? = none) :
    (m.limited wider).limitReached? = none := by
  rw [limitReached?_eq_none_iff] at hl ⊢
  intro l hl'
  exact UInt64.lt_of_lt_of_le (hl limit hm) (hw l hl')

theorem Stops.limited {r : Except ExecutionError RunStats} (h : Stops m r m')
    (hr : r ≠ .error (.stepLimitExceeded limit)) :
    Stops (m.limited wider) r (m'.limited wider) := by
  cases h with
  | halt hh => exact .halt hh
  | limit hh hl =>
      rw [limitReached?, hm, Option.filter_eq_some_iff] at hl
      exact absurd (by rw [Option.some.inj hl.1]) hr
  | fail hl ht => exact .fail (limitReached?_limited hm hw hl) (ht.limited wider)

theorem run_limited {fuel : Nat} {r : Except ExecutionError RunStats}
    (h : m.run fuel = (some r, m')) (hr : r ≠ .error (.stepLimitExceeded limit)) :
    (m.limited wider).run fuel = (some r, m'.limited wider) := by
  induction fuel generalizing m with
  | zero => cases h
  | succ fuel ih =>
      rcases m.stops_or_executes with ⟨r', m₁, hs⟩ | ⟨hl, m₁, ht⟩
      · rw [hs.run_succ] at h
        cases h
        exact (hs.limited hm hw hr).run_succ fuel
      · rw [run_succ_of_executed fuel hl ht] at h
        rw [run_succ_of_executed fuel (limitReached?_limited hm hw hl) (ht.limited wider)]
        exact ih (ht.stepLimit_eq.trans hm) h

end Widening

end

/-- A halt on the last step of the budget comes before the limit, a failure after it. -/
theorem step_budget_exact (m : Machine) (limit : UInt64) :
    (∀ count m', m.StopsAfter count (.ok .halted) m' → m.Affords limit count (.ok .halted) →
      ∀ fuel, m.budget limit < fuel → (m.limited (some limit)).run fuel =
        (some (.ok m'.stats), (m'.limited (some limit)).record (.programHalted m'.stats))) ∧
    (∀ count e m', m.StopsAfter count (.error e) m' → m.Affords limit count (.error e) →
      ∀ fuel, m.budget limit < fuel → (m.limited (some limit)).run fuel =
        (some (.error e), m'.limited (some limit))) ∧
    ((∀ count r m', m.StopsAfter count r m' → ¬ m.Affords limit count r) →
      ∃ m', m.stepped (m.budget limit) = some m' ∧
        ∀ fuel, m.budget limit < fuel → (m.limited (some limit)).run fuel =
          (some (.error (.stepLimitExceeded limit)),
            (m'.limited (some limit)).record (.stepLimitReached limit m'.ip))) ∧
    (∃ r m', ∀ fuel, m.budget limit < fuel → (m.limited (some limit)).run fuel = (some r, m')) ∧
    (∀ wider, (∀ l, wider = some l → limit ≤ l) → ∀ fuel r m',
      (m.limited (some limit)).run fuel = (some r, m') →
        r ≠ .error (.stepLimitExceeded limit) →
        (m.limited wider).run fuel = (some r, m'.limited wider)) ∧
    (∀ count m₁, m.stepped count = some m₁ → count ≤ m.budget limit → ∀ fuel,
      (m.limited (some limit)).run (count + fuel) = (m₁.limited (some limit)).run fuel) ∧
    (m.isHalted = true → ∀ any fuel, (m.limited any).run (fuel + 1) =
      (some (.ok m.stats), (m.limited any).record (.programHalted m.stats))) ∧
    ∀ any count, (m.limited any).stepped count = (m.stepped count).map (·.limited any) := by
  refine ⟨fun _ _ hs ha _ hf => run_of_halted hs ha hf,
    fun _ _ _ hs ha _ hf => run_of_failed hs ha hf, run_of_exhausted, ?_, ?_, ?_, ?_,
    m.stepped_limited⟩
  · by_cases h : ∃ count r m', m.StopsAfter count r m' ∧ m.Affords limit count r
    · obtain ⟨count, r, m', hs, ha⟩ := h
      rcases r with e | _ | _
      · exact ⟨_, _, fun fuel hf => run_of_failed hs ha hf⟩
      · exact absurd rfl hs.1
      · exact ⟨_, _, fun fuel hf => run_of_halted hs ha hf⟩
    · obtain ⟨m₁, -, hrun⟩ := run_of_exhausted fun count r m' hs ha => h ⟨count, r, m', hs, ha⟩
      exact ⟨_, _, hrun⟩
  · intro wider hw fuel r m' h hr
    exact run_limited (m := m.limited (some limit)) rfl hw h hr
  · intro count m₁ h hc
    exact (run_of_stepped h hc).2
  · intro hh any fuel
    exact Stops.run_succ (m := m.limited any) fuel (.halt hh)

theorem step_budget_exact_fit :
    let m := start (Program.ofList [43, 43]) { tapeLength := 1 } .empty .empty
    ∃ m', m.StopsAfter 2 (.ok .halted) m' ∧ m.Affords 2 2 (.ok .halted) ∧
      (m.limited (some 2)).run 3 = (some (.ok ⟨2, 0, 0, 0⟩),
        (m'.limited (some 2)).record (.programHalted ⟨2, 0, 0, 0⟩)) := by
  intro m
  have hs : m.StopsAfter 2 (.ok .halted) (m.stepped 2 |>.getD m) := ⟨nofun, _, rfl, by decide⟩
  have ha : m.Affords 2 2 (.ok .halted) := .inr ⟨rfl, .inl (by decide)⟩
  exact ⟨_, hs, ha, (step_budget_exact m 2).1 2 _ hs ha 3 (by decide)⟩

end TapeLang.Machine
