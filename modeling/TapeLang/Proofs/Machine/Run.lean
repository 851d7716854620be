import TapeLang.Proofs.Machine.Transition

namespace TapeLang.Machine

def executed : (fuel : Nat) → Machine → List UInt8
  | 0, _ => []
  | fuel + 1, m =>
      if m.isHalted then []
      else
        match m.limitReached? with
        | some _ => []
        | none =>
            match m.step with
            | (.ok _, m') => m.program.code[m.ip]?.toList ++ executed fuel m'
            | (.error _, _) => []

theorem isHalted_eq_false_iff {m : Machine} :
    m.isHalted = false ↔ ∃ b, m.program.code[m.ip]? = some b := by
  rw [isHalted, decide_eq_false_iff_not, Nat.not_le, ← Option.isSome_iff_exists]
  simp [Program.size]

theorem isHalted_of_byte {m : Machine} {b : UInt8} (hb : m.program.code[m.ip]? = some b) :
    m.isHalted = false :=
  isHalted_eq_false_iff.2 ⟨b, hb⟩

theorem Transition.not_halted {m m' : Machine} {e : ExecutionError}
    (h : Transition m (.error e) m') : m.isHalted = false := by
  cases h with
  | atomFails hb => exact isHalted_of_byte hb
  | unclosed hb => exact isHalted_of_byte hb
  | unopened hb => exact isHalted_of_byte hb

inductive Steps : Machine → List UInt8 → Machine → Prop
  | refl (m : Machine) : Steps m [] m
  | cons {m m₁ m' : Machine} {b : UInt8} {bytes : List UInt8}
      (hb : m.program.code[m.ip]? = some b) (ht : Transition m (.ok .executed) m₁)
      (hs : Steps m₁ bytes m') : Steps m (b :: bytes) m'

inductive Stops (m : Machine) : Except ExecutionError RunStats → Machine → Prop
  | halt (hh : m.isHalted = true) : Stops m (.ok m.stats) (m.record (.programHalted m.stats))
  | limit {limit : UInt64} (hh : m.isHalted = false) (hl : m.limitReached? = some limit) :
      Stops m (.error (.stepLimitExceeded limit)) (m.record (.stepLimitReached limit m.ip))
  | fail {m' : Machine} {e : ExecutionError} (hl : m.limitReached? = none)
      (ht : Transition m (.error e) m') : Stops m (.error e) m'

inductive Run : Machine → List UInt8 → Except ExecutionError RunStats → Machine → Prop
  | stop {m m' : Machine} {r : Except ExecutionError RunStats} (hs : Stops m r m') : Run m [] r m'
  | step {m m₁ m' : Machine} {b : UInt8} {bytes : List UInt8} {r : Except ExecutionError RunStats}
      (hl : m.limitReached? = none) (hb : m.program.code[m.ip]? = some b)
      (ht : Transition m (.ok .executed) m₁) (hr : Run m₁ bytes r m') : Run m (b :: bytes) r m'

theorem stops_or_executes (m : Machine) :
    (∃ r m', Stops m r m') ∨
      m.limitReached? = none ∧ ∃ m₁, Transition m (.ok .executed) m₁ := by
  cases hh : m.isHalted with
  | true => exact .inl ⟨_, _, .halt hh⟩
  | false =>
      cases hl : m.limitReached? with
      | some limit => exact .inl ⟨_, _, .limit hh hl⟩
      | none =>
          obtain ⟨r, m₁, ht⟩ := m.exists_transition
          rcases r with e | _ | _
          · exact .inl ⟨_, _, .fail hl ht⟩
          · exact .inr ⟨rfl, m₁, ht⟩
          · have := (step_eq_halted_iff.1 (step_of_transition ht)).1
            rw [hh] at this
            cases this

section

variable {m m₁ m' : Machine} {b : UInt8} {r : Except ExecutionError RunStats} (fuel : Nat)

theorem Stops.run_succ (h : Stops m r m') : m.run (fuel + 1) = (some r, m') := by
  unfold Machine.run
  cases h with
  | halt hh => simp [hh]
  | limit hh hl => simp [hh, hl]
  | fail hl ht => simp [ht.not_halted, hl, step_of_transition ht]

theorem Stops.executed_succ (h : Stops m r m') : m.executed (fuel + 1) = [] := by
  unfold executed
  cases h with
  | halt hh => simp [hh]
  | limit hh hl => simp [hh, hl]
  | fail hl ht => simp [ht.not_halted, hl, step_of_transition ht]

theorem run_succ_of_executed (hl : m.limitReached? = none)
    (ht : Transition m (.ok .executed) m₁) : m.run (fuel + 1) = m₁.run fuel := by
  obtain ⟨b, hb⟩ := ht.exists_byte
  simp [Machine.run, isHalted_of_byte hb, hl, step_of_transition ht]

theorem executed_succ_of_executed (hl : m.limitReached? = none)
    (hb : m.program.code[m.ip]? = some b) (ht : Transition m (.ok .executed) m₁) :
    m.executed (fuel + 1) = b :: m₁.executed fuel := by
  simp [executed, isHalted_of_byte hb, hl, step_of_transition ht, hb]

end

theorem run_iff {m m' : Machine} {bytes : List UInt8} {r : Except ExecutionError RunStats} :
    (∃ fuel, m.run fuel = (some r, m') ∧ m.executed fuel = bytes) ↔ Run m bytes r m' := by
  constructor
  · rintro ⟨fuel, h, rfl⟩
    induction fuel generalizing m with
    | zero => cases h
    | succ fuel ih =>
        rcases m.stops_or_executes with ⟨r', m₁, hs⟩ | ⟨hl, m₁, ht⟩
        · rw [hs.run_succ] at h
          cases h
          rw [hs.executed_succ]
          exact .stop hs
        · obtain ⟨b, hb⟩ := ht.exists_byte
          rw [run_succ_of_executed fuel hl ht] at h
          rw [executed_succ_of_executed fuel hl hb ht]
          exact .step hl hb ht (ih h)
  · intro h
    induction h with
    | stop hs => exact ⟨1, hs.run_succ 0, hs.executed_succ 0⟩
    | @step m m₁ m' b bytes r hl hb ht hr ih =>
        obtain ⟨fuel, hrun, rfl⟩ := ih
        exact ⟨fuel + 1, (run_succ_of_executed fuel hl ht).trans hrun,
          executed_succ_of_executed fuel hl hb ht⟩

theorem Run.of_run {m m' : Machine} {r : Except ExecutionError RunStats} {fuel : Nat}
    (h : m.run fuel = (some r, m')) : Run m (m.executed fuel) r m' :=
  run_iff.1 ⟨fuel, h, rfl⟩

theorem Run.exists_fuel {m m' : Machine} {bytes : List UInt8}
    {r : Except ExecutionError RunStats} (h : Run m bytes r m') :
    ∃ fuel, m.run fuel = (some r, m') := by
  obtain ⟨fuel, hr, -⟩ := run_iff.2 h
  exact ⟨fuel, hr⟩

theorem limitReached?_eq_none_iff {m : Machine} :
    m.limitReached? = none ↔ ∀ limit, m.stepLimit = some limit → m.stats.steps < limit := by
  rw [limitReached?, Option.filter_eq_none_iff]
  simp only [decide_eq_true_eq, UInt64.not_le]

theorem limitReached?_of_none {m : Machine} (h : m.stepLimit = none) : m.limitReached? = none := by
  rw [limitReached?, h]
  rfl

theorem steps_lt_of_limit {m : Machine} (hl : m.limitReached? = none) (hn : m.stepLimit ≠ none) :
    m.stats.steps.toNat + 1 < UInt64.size := by
  obtain ⟨limit, hlim⟩ := Option.ne_none_iff_exists'.1 hn
  have hlt := UInt64.lt_iff_toNat_lt.1 (limitReached?_eq_none_iff.1 hl limit hlim)
  have := limit.toNat_lt_size
  omega

theorem Run.of_executed {m m₁ m' : Machine} {bytes : List UInt8}
    {r : Except ExecutionError RunStats} (h : Run m bytes r m') (hl : m.limitReached? = none)
    (ht : Transition m (.ok .executed) m₁) :
    ∃ b rest, m.program.code[m.ip]? = some b ∧ bytes = b :: rest ∧ Run m₁ rest r m' := by
  cases h with
  | stop hs =>
      cases hs with
      | halt hh =>
          obtain ⟨b, hb⟩ := ht.exists_byte
          rw [isHalted_of_byte hb] at hh
          cases hh
      | limit hh hr =>
          rw [hl] at hr
          cases hr
      | fail hl' ht' => cases (ht'.deterministic ht).1
  | step hl' hb ht' hr =>
      obtain rfl := (ht'.deterministic ht).2
      exact ⟨_, _, hb, rfl, hr⟩

theorem Run.of_error {m m₁ m' : Machine} {bytes : List UInt8} {e : ExecutionError}
    {r : Except ExecutionError RunStats} (h : Run m bytes r m') (hl : m.limitReached? = none)
    (ht : Transition m (.error e) m₁) : bytes = [] ∧ r = .error e ∧ m' = m₁ := by
  cases h with
  | stop hs =>
      cases hs with
      | halt hh =>
          rw [ht.not_halted] at hh
          cases hh
      | limit hh hr =>
          rw [hl] at hr
          cases hr
      | fail hl' ht' =>
          obtain ⟨he, rfl⟩ := ht'.deterministic ht
          obtain rfl := Except.error.inj he
          exact ⟨rfl, rfl, rfl⟩
  | step hl' hb ht' hr => cases (ht'.deterministic ht).1

theorem Run.of_halted {m m' : Machine} {bytes : List UInt8} {r : Except ExecutionError RunStats}
    (h : Run m bytes r m') (hh : m.isHalted = true) :
    bytes = [] ∧ r = .ok m.stats ∧ m' = m.record (.programHalted m.stats) := by
  cases h with
  | stop hs =>
      cases hs with
      | halt => exact ⟨rfl, rfl, rfl⟩
      | limit hh' =>
          rw [hh] at hh'
          cases hh'
      | fail hl ht =>
          rw [ht.not_halted] at hh
          cases hh
  | step hl hb =>
      rw [isHalted_of_byte hb] at hh
      cases hh

theorem Run.steps_eq {m m' : Machine} {bytes : List UInt8}
    {r : Except ExecutionError RunStats} (h : Run m bytes r m') :
    m'.stats.steps = m.stats.steps + .ofNat bytes.length := by
  induction h with
  | @stop m m' r hs =>
      cases hs with
      | halt => exact (UInt64.add_zero _).symm
      | limit => exact (UInt64.add_zero _).symm
      | fail hl ht =>
          rw [ht.eq_of_error.1]
          exact (UInt64.add_zero _).symm
  | step hl hb ht _ ih =>
      rw [ih, ht.steps_eq, List.length_cons, UInt64.ofNat_add, UInt64.add_assoc, UInt64.add_comm 1]
      rfl

theorem Run.stats_of_ok {m m' : Machine} {bytes : List UInt8} {stats : RunStats}
    (h : Run m bytes (.ok stats) m') : stats = m'.stats := by
  generalize hr : Except.ok stats = r at h
  induction h with
  | stop hs =>
      cases hs with
      | halt => exact Except.ok.inj hr
      | limit => cases hr
      | fail => cases hr
  | step hl hb ht _ ih => exact ih hr

theorem Run.isHalted_of_ok {m m' : Machine} {bytes : List UInt8} {stats : RunStats}
    (h : Run m bytes (.ok stats) m') : m'.isHalted = true := by
  generalize hr : Except.ok stats = r at h
  induction h with
  | stop hs =>
      cases hs with
      | halt hh => exact hh
      | limit => cases hr
      | fail => cases hr
  | step _ _ _ _ ih => exact ih hr

theorem Run.ne_stepLimitExceeded {m m' : Machine} {bytes : List UInt8}
    {r : Except ExecutionError RunStats} (h : Run m bytes r m') (hn : m.stepLimit = none)
    (limit : UInt64) : r ≠ .error (.stepLimitExceeded limit) := by
  induction h with
  | stop hs =>
      cases hs with
      | halt => exact nofun
      | limit hh hl =>
          rw [limitReached?_of_none hn] at hl
          cases hl
      | fail hl ht =>
          rintro ⟨⟩
          cases ht.eq_of_error.2.2
  | step hl hb ht _ ih => exact ih (ht.stepLimit_eq.trans hn)

theorem Run.ip_of_position {m m' : Machine} {bytes : List UInt8} {e : ExecutionError}
    {position : Nat} (h : Run m bytes (.error e) m') (hp : e.position? = some position) :
    position = m'.ip := by
  generalize hr : Except.error e = r at h
  induction h with
  | stop hs =>
      cases hs with
      | halt => cases hr
      | limit =>
          cases hr
          cases hp
      | fail hl ht =>
          cases hr
          obtain ⟨hm, -, he⟩ := ht.eq_of_error
          rw [hm]
          exact Option.some.inj (hp.symm.trans he)
  | step _ _ _ _ ih => exact ih hr

theorem Steps.trans {m m₁ m' : Machine} {bytes more : List UInt8} (h : Steps m bytes m₁)
    (h' : Steps m₁ more m') : Steps m (bytes ++ more) m' := by
  induction h with
  | refl => exact h'
  | cons hb ht _ ih => exact .cons hb ht (ih h')

theorem Steps.single {m m' : Machine} {b : UInt8} (hb : m.program.code[m.ip]? = some b)
    (ht : Transition m (.ok .executed) m') : Steps m [b] m' :=
  .cons hb ht (.refl m')

theorem Steps.program_eq {m m' : Machine} {bytes : List UInt8} (h : Steps m bytes m') :
    m'.program = m.program := by
  induction h with
  | refl => rfl
  | cons hb ht _ ih => exact ih.trans ht.program_eq

theorem Steps.stepLimit_eq {m m' : Machine} {bytes : List UInt8} (h : Steps m bytes m') :
    m'.stepLimit = m.stepLimit := by
  induction h with
  | refl => rfl
  | cons hb ht _ ih => exact ih.trans ht.stepLimit_eq

theorem Steps.run {m m₁ m' : Machine} {bytes more : List UInt8}
    {r : Except ExecutionError RunStats} (h : Steps m bytes m₁) (hn : m.stepLimit = none)
    (hr : Run m₁ more r m') : Run m (bytes ++ more) r m' := by
  induction h with
  | refl => exact hr
  | cons hb ht _ ih =>
      exact .step (limitReached?_of_none hn) hb ht (ih (ht.stepLimit_eq.trans hn) hr)

inductive Call where
  | step
  | run (fuel : Nat)
  deriving DecidableEq, Repr

def call (m : Machine) : Call → Machine
  | .step => m.step.2
  | .run fuel => (m.run fuel).2

def after (m : Machine) (calls : List Call) : Machine :=
  calls.foldl call m

section Invariant

variable {P : Machine → Prop} (htransition : ∀ {m r m'}, P m → Transition m r m' → P m')
  (hrecord : ∀ {m e}, P m → P (m.record e))
include htransition hrecord

theorem run_invariant {m : Machine} (h : P m) (fuel : Nat) : P (m.run fuel).2 := by
  induction fuel generalizing m with
  | zero => exact h
  | succ fuel ih =>
      rcases m.stops_or_executes with ⟨r, m', hs⟩ | ⟨hl, m₁, ht⟩
      · rw [hs.run_succ]
        cases hs with
        | halt => exact hrecord h
        | limit => exact hrecord h
        | fail _ ht => exact htransition h ht
      · rw [run_succ_of_executed fuel hl ht]
        exact ih (htransition h ht)

theorem after_invariant {m : Machine} (h : P m) (calls : List Call) : P (m.after calls) := by
  induction calls generalizing m with
  | nil => exact h
  | cons c calls ih =>
      apply ih
      cases c with
      | step =>
          obtain ⟨r, m', ht⟩ := m.exists_transition
          rw [call, step_of_transition ht]
          exact htransition h ht
      | run fuel => exact run_invariant htransition hrecord h fuel

end Invariant

theorem program_after (m : Machine) (calls : List Call) :
    (m.after calls).program = m.program :=
  after_invariant (P := fun m' => m'.program = m.program)
    (fun h ht => ht.program_eq.trans h) id rfl calls

theorem Run.program_eq {m m' : Machine} {bytes : List UInt8}
    {r : Except ExecutionError RunStats} (h : Run m bytes r m') : m'.program = m.program := by
  induction h with
  | stop hs =>
      cases hs with
      | halt => rfl
      | limit => rfl
      | fail hl ht => exact ht.program_eq
  | step hl hb ht hr ih => exact ih.trans ht.program_eq

end TapeLang.Machine
