import TapeLang.Proofs.Machine.Evaluation
import TapeLang.Proofs.Machine.Run

namespace TapeLang.Tree

structure Holds (p : Program) (m : Machine) (position : Nat) (s : State) : Prop where
  program : m.program = p
  unlimited : m.stepLimit = none
  ip : m.ip = position
  device : m.device = s.device
  stats : m.stats = s.tally.toStats

def Realises (p : Program) (m : Machine) (stop : Nat) : Outcome → Prop
  | .finished s => ∃ bytes m', Machine.Steps m bytes m' ∧ Holds p m' stop s
  | .failed position f s => ∃ bytes m₁ m', Machine.Steps m bytes m₁ ∧
      Machine.Transition m₁ (.error (f.located position)) m' ∧ m'.device = s.device ∧
      m'.stats = s.tally.toStats

theorem Realises.after_steps {p : Program} {m m₁ : Machine} {stop : Nat} {bytes : List UInt8}
    {o : Outcome} (h : Realises p m₁ stop o) (hs : Machine.Steps m bytes m₁) :
    Realises p m stop o := by
  cases o with
  | finished s =>
      obtain ⟨more, m', hs', hm'⟩ := h
      exact ⟨_, m', hs.trans hs', hm'⟩
  | failed position f s =>
      obtain ⟨more, m₂, m', hs', hf⟩ := h
      exact ⟨_, m₂, m', hs.trans hs', hf⟩

namespace Holds

open Machine

variable {p : Program} {m : Machine} {position : Nat} {s : State} {body rest : Tree}

theorem atom {a : Atom} {d : Device} (h : Holds p m position s)
    (hp : p.Contains position (.atom a rest))
    (he : s.device.Acts a.val (.ok ()) d) :
    ∃ m', Transition m (.ok .executed) m' ∧
      Holds p m' (position + 1) ⟨d, s.tally.afterAtom a.val⟩ := by
  obtain ⟨rfl, hl, rfl, hd, hs⟩ := h
  rw [← hd] at he
  refine ⟨_, .atom hp.byte_atom a.property he.effect, rfl, hl, rfl, rfl, ?_⟩
  rw [Tally.toStats_afterAtom, ← hs]

theorem atomFails {a : Atom} {d : Device} {f : Failure} (h : Holds p m position s)
    (hp : p.Contains position (.atom a rest))
    (he : s.device.Acts a.val (.error f) d) :
    ∃ m', Transition m (.error (f.located position)) m' ∧ m'.device = d ∧
      m'.stats = s.tally.toStats := by
  obtain ⟨rfl, hl, rfl, hd, hs⟩ := h
  rw [← hd] at he
  exact ⟨_, .atomFails hp.byte_atom a.property he.effect, rfl, hs⟩

theorem skip (h : Holds p m position s) (hp : p.Contains position (.loop body rest))
    (hc : s.device.tape.Shows 0) :
    ∃ m', Transition m (.ok .executed) m' ∧
      Holds p m' (position + body.size + 2) ⟨s.device, s.tally.afterJump⟩ := by
  obtain ⟨rfl, hl, rfl, hd, hs⟩ := h
  rw [← hd, Tape.shows_iff] at hc
  refine ⟨_, .skipLoop hp.byte_start hc hp.matchingClose, rfl, hl, ?_, hd, ?_⟩
  · change m.ip + 1 + body.size + 1 = _
    omega
  · rw [Tally.toStats_afterJump, ← hs]
    rfl

theorem enter (h : Holds p m position s) (hp : p.Contains position (.loop body rest))
    (hc : ¬ s.device.tape.Shows 0) :
    ∃ m', Transition m (.ok .executed) m' ∧
      Holds p m' (position + 1) ⟨s.device, s.tally.afterStep⟩ := by
  obtain ⟨rfl, hl, rfl, hd, hs⟩ := h
  rw [← hd, Tape.shows_iff] at hc
  refine ⟨_, .enterLoop hp.byte_start hc, rfl, hl, rfl, hd, ?_⟩
  rw [Tally.toStats_afterStep, ← hs]
  rfl

theorem leave (h : Holds p m (position + 1 + body.size) s)
    (hp : p.Contains position (.loop body rest)) (hc : s.device.tape.Shows 0) :
    ∃ m', Transition m (.ok .executed) m' ∧
      Holds p m' (position + body.size + 2) ⟨s.device, s.tally.afterStep⟩ := by
  obtain ⟨rfl, hl, hip, hd, hs⟩ := h
  have hb := hp.byte_end
  rw [← hip] at hb
  rw [← hd, Tape.shows_iff] at hc
  refine ⟨_, .leaveLoop hb hc, rfl, hl, ?_, hd, ?_⟩
  · change m.ip + 1 = _
    omega
  · rw [Tally.toStats_afterStep, ← hs]
    rfl

theorem again (h : Holds p m (position + 1 + body.size) s)
    (hp : p.Contains position (.loop body rest)) (hc : ¬ s.device.tape.Shows 0) :
    ∃ m', Transition m (.ok .executed) m' ∧
      Holds p m' (position + 1) ⟨s.device, s.tally.afterJump⟩ := by
  obtain ⟨rfl, hl, hip, hd, hs⟩ := h
  have hb := hp.byte_end
  have ho := hp.matchingOpen
  rw [← hip] at hb ho
  rw [← hd, Tape.shows_iff] at hc
  refine ⟨_, .repeatLoop hb hc ho, rfl, hl, rfl, hd, ?_⟩
  rw [Tally.toStats_afterJump, ← hs]
  rfl

end Holds

theorem realises_of_transition {p : Program} {m : Machine} {stop position : Nat} {s : State}
    {o : Outcome} (ht : ∃ m', Machine.Transition m (.ok .executed) m' ∧ Holds p m' position s)
    (hr : ∀ m', Holds p m' position s → Realises p m' stop o) : Realises p m stop o := by
  obtain ⟨m', ht, hm'⟩ := ht
  obtain ⟨b, hb⟩ := ht.exists_byte
  exact (hr m' hm').after_steps (.single hb ht)

theorem realises_of_evaluates {p : Program} {position : Nat} {task : Task} {s : State}
    {o : Outcome} (h : Evaluates position task s o) (hp : p.Contains position task.whole)
    {m : Machine} (hm : Holds p m (position + task.lead) s) :
    Realises p m (position + task.whole.size) o := by
  induction h generalizing m with
  | done => exact ⟨[], m, .refl m, hm⟩
  | atom he _ ih =>
      rw [Task.whole, add_size_atom]
      exact realises_of_transition (hm.atom hp he) fun m' hm' => ih hp.rest_atom hm'
  | atomFails he =>
      obtain ⟨m', ht, hd, hs⟩ := hm.atomFails hp he
      exact ⟨[], m, m', .refl m, ht, hd, hs⟩
  | skip hc _ ih =>
      rw [Task.whole, add_size_loop]
      exact realises_of_transition (hm.skip hp hc) fun m' hm' => ih hp.rest_loop hm'
  | enter hc _ ih => exact realises_of_transition (hm.enter hp hc) fun m' hm' => ih hp hm'
  | bodyFails _ ih => exact ih hp.body_loop hm
  | leave _ hc _ ihb ihr =>
      obtain ⟨bytes, m₁, hs, hm₁⟩ := ihb hp.body_loop hm
      rw [Task.whole, add_size_loop]
      exact (realises_of_transition (hm₁.leave hp hc) fun m' hm' =>
        ihr hp.rest_loop hm').after_steps hs
  | again _ hc _ ihb ihp =>
      obtain ⟨bytes, m₁, hs, hm₁⟩ := ihb hp.body_loop hm
      exact (realises_of_transition (hm₁.again hp hc) fun m' hm' => ihp hp hm').after_steps hs

inductive Accounts (p : Program) (bytes : List UInt8) (r : Except ExecutionError RunStats)
    (m' : Machine) (position : Nat) (task : Task) (s : State) : Prop
  | finished {s₁ : State} {m₁ : Machine} {more : List UInt8}
      (he : Evaluates position task s (.finished s₁))
      (hm : Holds p m₁ (position + task.whole.size) s₁) (hr : Machine.Run m₁ more r m')
      (hl : more.length ≤ bytes.length)
  | failed {stop : Nat} {f : Failure} {s₁ : State}
      (he : Evaluates position task s (.failed stop f s₁)) (hr : r = .error (f.located stop))
      (hd : m'.device = s₁.device) (hs : m'.stats = s₁.tally.toStats)

theorem Accounts.earlier {p : Program} {bytes more : List UInt8}
    {r : Except ExecutionError RunStats} {m' : Machine} {position position₁ : Nat}
    {task task₁ : Task} {s s₁ : State} (h : Accounts p more r m' position₁ task₁ s₁)
    (hl : more.length ≤ bytes.length)
    (hstop : position₁ + task₁.whole.size = position + task.whole.size)
    (he : ∀ o, Evaluates position₁ task₁ s₁ o → Evaluates position task s o) :
    Accounts p bytes r m' position task s := by
  cases h with
  | finished he' hm hr hl' =>
      rw [hstop] at hm
      exact .finished (he _ he') hm hr (Nat.le_trans hl' hl)
  | failed he' hr hd hs => exact .failed (he _ he') hr hd hs

theorem accounts_of_run {p : Program} {m' : Machine} {r : Except ExecutionError RunStats}
    {bytes : List UInt8} {position : Nat} {task : Task} {s : State} {m : Machine}
    (hp : p.Contains position task.whole) (hm : Holds p m (position + task.lead) s)
    (h : Machine.Run m bytes r m') : Accounts p bytes r m' position task s := by
  -- Every step shortens the run; a pass makes none of its own, but goes on with a tree.
  induction hn : 2 * bytes.length + task.lead using Nat.strongRecOn
    generalizing bytes position task s m with
  | ind n ih =>
  have next (position₁ : Nat) (task₁ : Task) {m₂ : Machine} {bytes₂ : List UInt8}
      (hr : Machine.Run m₂ bytes₂ r m') (hl : bytes₂.length ≤ bytes.length)
      {position₂ : Nat} {s₁ s₂ : State} (hm₂ : Holds p m₂ position₂ s₂)
      (ht : ∃ m₁, Machine.Transition m₂ (.ok .executed) m₁ ∧ Holds p m₁ (position₁ + task₁.lead) s₁)
      (hp₁ : p.Contains position₁ task₁.whole) :
      ∃ more, more.length ≤ bytes.length ∧ Accounts p more r m' position₁ task₁ s₁ := by
    obtain ⟨m₁, ht, hm₁⟩ := ht
    obtain ⟨b, more, -, rfl, hr₁⟩ :=
      hr.of_executed (Machine.limitReached?_of_none hm₂.unlimited) ht
    rw [List.length_cons] at hl
    refine ⟨more, Nat.le_of_succ_le hl, ih _ ?_ hp₁ hm₁ hr₁ rfl⟩
    have := task₁.lead_le
    omega
  cases task with
  | tree t =>
      cases t with
      | done => exact .finished .done hm h (Nat.le_refl _)
      | atom a rest =>
          obtain ⟨result, d, he⟩ := s.device.exists_acts a.property
          cases result with
          | ok =>
              obtain ⟨more, hl, hacc⟩ := next (position + 1) (.tree rest) h
                (Nat.le_refl _) hm (hm.atom hp he) hp.rest_atom
              exact hacc.earlier hl (add_size_atom _ a rest).symm fun o ho => .atom he ho
          | error f =>
              obtain ⟨m₁, ht, hd, hs⟩ := hm.atomFails hp he
              obtain ⟨rfl, rfl, rfl⟩ :=
                h.of_error (Machine.limitReached?_of_none hm.unlimited) ht
              exact .failed (.atomFails he) rfl hd hs
      | loop body rest =>
          by_cases hc : s.device.tape.Shows 0
          · obtain ⟨more, hl, hacc⟩ := next (position + body.size + 2) (.tree rest) h
              (Nat.le_refl _) hm (hm.skip hp hc) hp.rest_loop
            exact hacc.earlier hl (add_size_loop _ body rest).symm fun o ho => .skip hc ho
          · obtain ⟨more, hl, hacc⟩ := next position (.pass body rest) h
              (Nat.le_refl _) hm (hm.enter hp hc) hp
            exact hacc.earlier hl rfl fun o ho => .enter hc ho
  | pass body rest =>
      have hbody : Accounts p bytes r m' (position + 1) (.tree body) s := by
        refine ih _ ?_ hp.body_loop hm h rfl
        rw [← hn]
        exact Nat.lt_succ_self _
      cases hbody with
      | failed he hr hd hs => exact .failed (.bodyFails he) hr hd hs
      | @finished s₁ m₁ more he hm₁ hr hl =>
          by_cases hc : s₁.device.tape.Shows 0
          · obtain ⟨more', hl', hacc⟩ := next (position + body.size + 2) (.tree rest) hr hl
              hm₁ (hm₁.leave hp hc) hp.rest_loop
            exact hacc.earlier hl' (add_size_loop _ body rest).symm fun o ho => .leave he hc ho
          · obtain ⟨more', hl', hacc⟩ := next position (.pass body rest) hr hl hm₁
              (hm₁.again hp hc) hp
            exact hacc.earlier hl' rfl fun o ho => .again he hc ho

structure Agrees (m : Machine) (t : Tree) (s : State) : Prop where
  finished : ∀ stats d, (∃ fuel m', m.run fuel = (some (.ok stats), m') ∧ m'.device = d) ↔
    ∃ tally, Evaluates 0 (.tree t) s (.finished ⟨d, tally⟩) ∧ stats = tally.toStats
  failed : ∀ e stats d,
    (∃ fuel m', m.run fuel = (some (.error e), m') ∧ m'.device = d ∧ m'.stats = stats) ↔
      ∃ position f tally, e = f.located position ∧
        Evaluates 0 (.tree t) s (.failed position f ⟨d, tally⟩) ∧ stats = tally.toStats
  failed_at : ∀ position f s', Evaluates 0 (.tree t) s (.failed position f s') →
    ∃ (a : Atom) (d : Device), m.program.code[position]? = some a.val ∧
      d.Acts a.val (.error f) s'.device
  counters : ∀ o, Evaluates 0 (.tree t) s o → o.state.tally.steps < UInt64.size →
    let stats := o.state.tally.toStats
    stats.steps.toNat = o.state.tally.steps ∧ stats.jumps.toNat = o.state.tally.jumps ∧
      stats.bytesRead.toNat = o.state.tally.bytesRead ∧
      stats.bytesWritten.toNat = o.state.tally.bytesWritten

theorem Holds.halted {p : Program} {m : Machine} {t : Tree} {s : State}
    (hm : Holds p m (0 + t.size) s) (ht : t.flatten = p.toList) : m.isHalted = true := by
  have hend : m.ip = m.program.size := by
    rw [hm.program, hm.ip, Nat.zero_add, size, ht, Program.length_toList]
  rw [Machine.isHalted, decide_eq_true_eq]
  exact Nat.le_of_eq hend.symm

theorem Holds.agrees {p : Program} {m : Machine} {t : Tree} {s : State} (hm : Holds p m 0 s)
    (ht : t.flatten = p.toList) : Agrees m t s := by
  have hp : p.Contains 0 (Task.tree t).whole := .whole ht
  refine ⟨?_, ?_, ?_, ?_⟩
  · intro stats d
    constructor
    · rintro ⟨fuel, m', hr, rfl⟩
      cases accounts_of_run hp hm (Machine.Run.of_run hr) with
      | finished he hm₁ hr₁ =>
          obtain ⟨-, hstats, rfl⟩ := hr₁.of_halted (hm₁.halted ht)
          have hd := hm₁.device
          refine ⟨_, ?_, (Except.ok.inj hstats).trans hm₁.stats⟩
          rw [Machine.record, hd]
          exact he
      | failed he hr₁ => cases hr₁
    · rintro ⟨tally, he, rfl⟩
      obtain ⟨bytes, m₁, hs, hm₁⟩ := realises_of_evaluates he hp hm
      have hr := hs.run hm.unlimited (.stop (.halt (hm₁.halted ht)))
      obtain ⟨fuel, hf⟩ := hr.exists_fuel
      rw [hm₁.stats] at hf
      exact ⟨fuel, _, hf, hm₁.device⟩
  · intro e stats d
    constructor
    · rintro ⟨fuel, m', hr, rfl, rfl⟩
      cases accounts_of_run hp hm (Machine.Run.of_run hr) with
      | finished he hm₁ hr₁ => cases (hr₁.of_halted (hm₁.halted ht)).2.1
      | failed he hr₁ hd hs =>
          rw [hd]
          exact ⟨_, _, _, Except.error.inj hr₁, he, hs⟩
    · rintro ⟨position, f, tally, rfl, he, rfl⟩
      obtain ⟨bytes, m₁, m', hs, ht, hd, hstats⟩ := realises_of_evaluates he hp hm
      have hl := Machine.limitReached?_of_none (hs.stepLimit_eq.trans hm.unlimited)
      obtain ⟨fuel, hf⟩ := (hs.run hm.unlimited (.stop (.fail hl ht))).exists_fuel
      exact ⟨fuel, m', hf, hd, hstats⟩
  · intro position f s' he
    rw [hm.program]
    exact he.failed_at hp
  · intro o _ hlt
    exact Tally.toNat_toStats hlt

theorem structured_refinement (p : Program) (h : p.validate .strict = .ok ()) :
    ∃ t : Tree, t.flatten = p.toList ∧ (∀ u : Tree, u.flatten = p.toList → u = t) ∧
      ∀ tapeLength input output,
        ∃ blank : Tape, blank.cells = Array.replicate (max 1 tapeLength) 0 ∧ blank.pointer = 0 ∧
          Agrees (Machine.start p { tapeLength, stepLimit := none } input output) t
            ⟨⟨blank, input, output⟩, .zero⟩ := by
  obtain ⟨t, ht⟩ := exists_flatten_of_strict h
  refine ⟨t, ht, fun u hu => flatten_injective (hu.trans ht.symm), ?_⟩
  intro tapeLength input output
  exact ⟨Tape.ofLength tapeLength, rfl, rfl, Holds.agrees ⟨rfl, rfl, rfl, rfl, rfl⟩ ht⟩

theorem structured_refinement_copy :
    let p := Program.ofList [44, 91, 46, 44, 93]
    p.validate .strict = .ok () ∧ ∃ t : Tree, t.flatten = p.toList ∧ ∃ blank : Tape,
      blank.cells = #[0] ∧ ∃ d tally,
        Evaluates 0 (.tree t) ⟨⟨blank, .ofBytes [2, 0], .empty⟩, .zero⟩ (.finished ⟨d, tally⟩) ∧
          d.tape.cells = #[0] ∧ d.output.stored = #[2] ∧ tally.toStats = ⟨5, 0, 2, 1⟩ := by
  intro p
  have hp : p.validate .strict = .ok () := by decide
  obtain ⟨t, ht, -, hagrees⟩ := structured_refinement p hp
  obtain ⟨blank, hcells, -, hagrees⟩ := hagrees 1 (.ofBytes [2, 0]) .empty
  let first := Machine.start p { tapeLength := 1, stepLimit := none } (.ofBytes [2, 0]) .empty
  have hrun : (first.run 6).1 = some (.ok ⟨5, 0, 2, 1⟩) := by decide
  obtain ⟨tally, he, htally⟩ := (hagrees.finished _ _).1 ⟨6, _, Prod.ext hrun rfl, rfl⟩
  exact ⟨hp, t, ht, blank, hcells, _, tally, he, by decide, by decide, htally.symm⟩

end TapeLang.Tree
