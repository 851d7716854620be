import TapeLang.Proofs.Machine.Evaluation
import TapeLang.Proofs.Machine.History
import TapeLang.Proofs.Program.Search

namespace TapeLang

namespace Device

variable {i : Option Instruction} {d d' : Device} {r : Except Failure Unit}

theorem Effect.tape_cases (h : Effect i d r d') :
    (∃ value, d'.tape = d.tape.setCurrent value) ∨
      d'.tape.cells = d.tape.cells ∧
        d'.tape.pointer ≤ d.tape.pointer + if i = some .moveRight then 1 else 0 := by
  cases h with
  | commentary => exact .inr ⟨rfl, Nat.le_refl _⟩
  | increment => exact .inl ⟨_, rfl⟩
  | decrement => exact .inl ⟨_, rfl⟩
  | moveRight => exact .inr ⟨rfl, Nat.le_refl _⟩
  | rightEdge => exact .inr ⟨rfl, Nat.le_add_right _ _⟩
  | moveLeft => exact .inr ⟨rfl, Nat.sub_le _ _⟩
  | leftEdge => exact .inr ⟨rfl, Nat.le_refl _⟩
  | output => exact .inr ⟨rfl, Nat.le_refl _⟩
  | outputFails => exact .inr ⟨rfl, Nat.le_refl _⟩
  | input => exact .inl ⟨_, rfl⟩
  | inputFails => exact .inr ⟨rfl, Nat.le_refl _⟩

theorem Effect.size_eq (h : Effect i d r d') : d'.tape.size = d.tape.size := by
  rcases h.tape_cases with ⟨value, ht⟩ | ⟨hc, -⟩
  · rw [ht, Tape.size_setCurrent]
  · rw [Tape.size, hc, Tape.size]

theorem Effect.cells_eq (h : Effect i d r d') {j : Nat} (hj : j ≠ d.tape.pointer) :
    d'.tape.cells[j]? = d.tape.cells[j]? := by
  rcases h.tape_cases with ⟨value, ht⟩ | ⟨hc, -⟩
  · rw [ht, Tape.getElem?_setCurrent, if_neg hj]
  · rw [hc]

theorem Effect.pointer_le (h : Effect i d r d') :
    d'.tape.pointer ≤ d.tape.pointer + if i = some .moveRight then 1 else 0 := by
  rcases h.tape_cases with ⟨value, ht⟩ | ⟨-, hp⟩
  · rw [ht, Tape.pointer_setCurrent]
    exact Nat.le_add_right _ _
  · exact hp

end Device

namespace Machine

section

variable {m m' : Machine} {r : Except ExecutionError Step}

theorem Transition.device_cases (h : Transition m r m') :
    m'.device = m.device ∨ ∃ b f, m.program.code[m.ip]? = some b ∧
      Device.Effect (Instruction.ofByte? b) m.device f m'.device := by
  cases h with
  | halted => exact .inl rfl
  | atom hb _ he => exact .inr ⟨_, _, hb, he⟩
  | atomFails hb _ he => exact .inr ⟨_, _, hb, he⟩
  | enterLoop => exact .inl rfl
  | skipLoop => exact .inl rfl
  | unclosed => exact .inl rfl
  | leaveLoop => exact .inl rfl
  | repeatLoop => exact .inl rfl
  | unopened => exact .inl rfl

theorem Transition.size_eq (h : Transition m r m') :
    m'.device.tape.size = m.device.tape.size := by
  rcases h.device_cases with hd | ⟨b, f, -, he⟩
  · rw [hd]
  · exact he.size_eq

theorem Transition.cells_eq (h : Transition m r m') {j : Nat} (hj : j ≠ m.device.tape.pointer) :
    m'.device.tape.cells[j]? = m.device.tape.cells[j]? := by
  rcases h.device_cases with hd | ⟨b, f, -, he⟩
  · rw [hd]
  · exact he.cells_eq hj

def MovesRight (m : Machine) : Prop :=
  m.program.code[m.ip]? = some Instruction.moveRight.byte

instance (m : Machine) : Decidable m.MovesRight :=
  inferInstanceAs (Decidable (_ = _))

theorem Transition.pointer_le (h : Transition m r m') :
    m'.device.tape.pointer ≤ m.device.tape.pointer + if m.MovesRight then 1 else 0 := by
  rcases h.device_cases with hd | ⟨b, f, hb, he⟩
  · rw [hd]
    exact Nat.le_add_right _ _
  · have hright : m.MovesRight ↔ Instruction.ofByte? b = some .moveRight := by
      rw [MovesRight, hb, Option.some.injEq, Instruction.ofByte?_eq_some_iff]
    simpa only [hright] using he.pointer_le

theorem Transition.ip_le (h : Transition m r m') (hip : m.ip ≤ m.program.size) :
    m'.ip ≤ m.program.size := by
  have hlt {i : Nat} {b : UInt8} (hb : m.program.code[i]? = some b) : i + 1 ≤ m.program.size :=
    (Array.getElem?_eq_some_iff.1 hb).1
  cases h with
  | halted => exact hip
  | atom hb => exact hlt hb
  | atomFails => exact hip
  | enterLoop hb => exact hlt hb
  | skipLoop _ _ ht => exact hlt (Program.byte_of_matchingClose ht)
  | unclosed => exact hip
  | leaveLoop hb => exact hlt hb
  | repeatLoop hb _ ht => exact hlt (Program.byte_of_matchingOpen hip ht)
  | unopened => exact hip

theorem Transition.exists_tally (h : Transition m (.ok .executed) m') {t : Tally}
    (ht : m.stats = t.toStats) : ∃ t' : Tally, t'.steps = t.steps + 1 ∧ m'.stats = t'.toStats := by
  cases h with
  | @atom b d hb ha he =>
      refine ⟨t.afterAtom b, rfl, ?_⟩
      rw [Tally.toStats_afterAtom, ← ht]
  | enterLoop => exact ⟨t.afterStep, rfl, by rw [Tally.toStats_afterStep, ← ht]; rfl⟩
  | skipLoop => exact ⟨t.afterJump, rfl, by rw [Tally.toStats_afterJump, ← ht]; rfl⟩
  | leaveLoop => exact ⟨t.afterStep, rfl, by rw [Tally.toStats_afterStep, ← ht]; rfl⟩
  | repeatLoop => exact ⟨t.afterJump, rfl, by rw [Tally.toStats_afterJump, ← ht]; rfl⟩

end

def furthest (machines : List Machine) : Nat :=
  machines.foldl (fun far m => max far m.device.tape.pointer) 0

@[simp]
theorem furthest_concat (machines : List Machine) (m : Machine) :
    furthest (machines ++ [m]) = max (furthest machines) m.device.tape.pointer := by
  simp [furthest]

structure Explored (tapeLength : Nat) (past : List Machine) (m : Machine) : Prop where
  size : m.device.tape.size = max 1 tapeLength
  ip_le : m.ip ≤ m.program.size
  zero_beyond : ∀ i v, m.device.tape.cells[i]? = some v → furthest (past ++ [m]) < i → v = 0
  furthest_le : furthest (past ++ [m]) ≤ past.countP (·.MovesRight)
  tally : ∃ t : Tally, t.steps = past.length ∧ m.stats = t.toStats

namespace Explored

variable {tapeLength : Nat} {past : List Machine} {m m' : Machine}

theorem start (p : Program) (config : Config) (input : Source) (output : Sink) :
    Explored config.tapeLength [] (start p config input output) := by
  refine ⟨Tape.size_ofLength _, Nat.zero_le _, ?_, Nat.le_refl 0, .zero, rfl, rfl⟩
  intro i v hv _
  obtain ⟨hi, hv⟩ := Array.getElem?_eq_some_iff.1 hv
  simpa [Machine.start, Tape.ofLength] using hv.symm

theorem executed (h : Explored tapeLength past m) (ht : Transition m (.ok .executed) m') :
    Explored tapeLength (past ++ [m]) m' := by
  obtain ⟨t, hsteps, hstats⟩ := h.tally
  refine ⟨ht.size_eq.trans h.size, ?_, ?_, ?_, ?_⟩
  · rw [ht.program_eq]
    exact ht.ip_le h.ip_le
  · -- A step writes at the pointer only, which does not go beyond the furthest one.
    intro i v hv hi
    rw [furthest_concat, Nat.max_lt] at hi
    have hne : i ≠ m.device.tape.pointer := by
      have := hi.1
      rw [furthest_concat, Nat.max_lt] at this
      omega
    rw [ht.cells_eq hne] at hv
    exact h.zero_beyond i v hv hi.1
  · have hle := h.furthest_le
    have hpointer := ht.pointer_le
    rw [furthest_concat] at hle ⊢
    rw [furthest_concat, List.countP_append, List.countP_singleton]
    simp only [decide_eq_true_eq]
    omega
  · obtain ⟨t', hsteps', hstats'⟩ := ht.exists_tally hstats
    exact ⟨t', by rw [hsteps', hsteps, List.length_append, List.length_singleton], hstats'⟩

theorem congr (h : Explored tapeLength past m) (hp : m'.program = m.program) (hi : m'.ip = m.ip)
    (ht : m'.device.tape = m.device.tape) (hs : m'.stats = m.stats) :
    Explored tapeLength past m' := by
  refine ⟨?_, ?_, ?_, ?_, ?_⟩
  · rw [ht]
    exact h.size
  · rw [hi, hp]
    exact h.ip_le
  · have hz := h.zero_beyond
    rw [furthest_concat] at hz ⊢
    rwa [ht]
  · have hle := h.furthest_le
    rw [furthest_concat] at hle ⊢
    rwa [ht]
  · rw [hs]
    exact h.tally

theorem failed {e : ExecutionError} (h : Explored tapeLength past m)
    (ht : Transition m (.error e) m') : Explored tapeLength past m' := by
  obtain ⟨hm, htape, -⟩ := ht.eq_of_error
  refine h.congr ht.program_eq ?_ htape ?_
  · rw [hm]
  · rw [hm]

theorem after (p : Program) (config : Config) (input : Source) (output : Sink)
    (calls : List Call) :
    Explored config.tapeLength ((Machine.start p config input output).history calls)
      ((Machine.start p config input output).after calls) :=
  history_invariant (P := Explored config.tapeLength) executed failed
    (fun h => h.congr rfl rfl rfl rfl) (start p config input output) calls

theorem stats_le (h : Explored tapeLength past m) (hlt : past.length < UInt64.size) :
    m.stats.steps.toNat = past.length ∧
      m.stats.jumps.toNat + m.stats.bytesRead.toNat + m.stats.bytesWritten.toNat ≤
        m.stats.steps.toNat := by
  obtain ⟨t, hsteps, hstats⟩ := h.tally
  rw [← hsteps] at hlt ⊢
  obtain ⟨hs, hj, hr, hw⟩ := Tally.toNat_toStats hlt
  rw [hstats, hs, hj, hr, hw]
  exact ⟨rfl, t.sum_le⟩

end Explored

theorem ip_le_of_run {m : Machine} (h : m.ip ≤ m.program.size) (fuel : Nat) :
    (m.run fuel).2.ip ≤ (m.run fuel).2.program.size :=
  run_invariant (P := fun m => m.ip ≤ m.program.size)
    (fun h ht => ht.program_eq ▸ ht.ip_le h) id h fuel

theorem ip_le_of_stepped {m m' : Machine} {count : Nat} (h : m.ip ≤ m.program.size)
    (hm : m.stepped count = some m') : m'.ip ≤ m.program.size := by
  induction count generalizing m with
  | zero =>
      obtain rfl := Option.some.inj hm
      exact h
  | succ count ih =>
      obtain ⟨m₁, ht, hm₁⟩ := exists_transition_of_stepped hm
      rw [← ht.program_eq]
      exact ih (ht.program_eq ▸ ht.ip_le h) hm₁

theorem ip_eq_size_of_run {m m' : Machine} {fuel : Nat} {stats : RunStats}
    (h : m.ip ≤ m.program.size) (hm : m.run fuel = (some (.ok stats), m')) :
    m'.ip = m.program.size := by
  have hrun := Run.of_run hm
  have hh := hrun.isHalted_of_ok
  have hle := ip_le_of_run h fuel
  rw [isHalted, decide_eq_true_eq] at hh
  rw [hm] at hle
  rw [← hrun.program_eq]
  exact Nat.le_antisymm hle hh

theorem step_halts_iff {m : Machine} (h : m.ip ≤ m.program.size) :
    m.step.1 = .ok .halted ↔ m.ip = m.program.size := by
  have hhalted : m.step.1 = .ok .halted ↔ m.isHalted = true := by
    constructor
    · intro hs
      exact (step_eq_halted_iff.1 (Prod.ext hs rfl)).1
    · intro hh
      rw [step_eq_halted_iff.2 ⟨hh, rfl⟩]
  rw [hhalted, isHalted, decide_eq_true_eq]
  omega

theorem reachable_state_bounds (p : Program) (config : Config) (input : Source) (output : Sink)
    (calls : List Call) :
    let m := (start p config input output).after calls
    let past := (start p config input output).history calls
    m.device.tape.size = max 1 config.tapeLength ∧
    m.device.tape.pointer < m.device.tape.size ∧
    m.ip ≤ p.size ∧ (m.step.1 = .ok .halted ↔ m.ip = p.size) ∧
    (∀ i v, m.device.tape.cells[i]? = some v → v ≠ 0 → i ≤ furthest (past ++ [m])) ∧
    furthest (past ++ [m]) ≤ past.countP (·.MovesRight) ∧
    (past.length < UInt64.size → m.stats.steps.toNat = past.length ∧
      m.stats.jumps.toNat + m.stats.bytesRead.toNat + m.stats.bytesWritten.toNat ≤
        m.stats.steps.toNat) ∧
    (∃ rounds ≤ p.size - (m.ip + 1),
      Program.Search.Ends (Program.Search.forward p.code) rounds ⟨1, m.ip⟩
        (p.matchingClose m.ip)) ∧
    ∃ rounds ≤ m.ip,
      Program.Search.Ends (Program.Search.backward p.code) rounds ⟨1, m.ip⟩
        (p.matchingOpen m.ip) := by
  intro m past
  have h : Explored config.tapeLength past m := .after p config input output calls
  have hp : m.program = p := program_after _ calls
  have hip : m.ip ≤ p.size := hp ▸ h.ip_le
  refine ⟨h.size, m.device.tape.pointer_lt, hip, ?_, ?_, h.furthest_le, h.stats_le,
    p.ends_matchingClose m.ip, Program.ends_matchingOpen hip⟩
  · have hhalts := step_halts_iff h.ip_le
    rwa [hp] at hhalts
  · intro i v hv hne
    by_contra hlt
    exact hne (h.zero_beyond i v hv (Nat.lt_of_not_le hlt))

end Machine

end TapeLang
