import TapeLang.Proofs.Machine.Run
import TapeLang.Proofs.Stream.Erasure

namespace TapeLang

namespace Device

def erased (d : Device) : Device :=
  { d with input := d.input.erased, output := d.output.erased }

def erasedCount (d : Device) : Nat :=
  d.input.erasedCount + d.output.erasedCount

def breaks (d : Device) : Nat :=
  d.input.breaks + d.output.breaks

theorem breaks_le_erasedCount (d : Device) : d.breaks ≤ d.erasedCount :=
  Nat.add_le_add d.input.breaks_le_erasedCount d.output.breaks_le_erasedCount

theorem Effect.breaks {i : Option Instruction} {d d' : Device} {r : Except Failure Unit}
    (h : Effect i d r d') :
    d'.breaks = d.breaks ∧ (∀ e, r = .error (.transfer e) →
        e = ⟨.read, .count 0⟩ ∧ d'.input.supply = []) ∨
      d.breaks = d'.breaks + 1 ∧ ∃ e, r = .error (.transfer e) := by
  cases h with
  | commentary => exact .inl ⟨rfl, nofun⟩
  | increment => exact .inl ⟨rfl, nofun⟩
  | decrement => exact .inl ⟨rfl, nofun⟩
  | moveRight => exact .inl ⟨rfl, nofun⟩
  | rightEdge => exact .inl ⟨rfl, nofun⟩
  | moveLeft => exact .inl ⟨rfl, nofun⟩
  | leftEdge => exact .inl ⟨rfl, nofun⟩
  | output _ hw =>
      cases Sink.writes hw with
      | passed _ _ hb =>
          refine .inl ⟨?_, nofun⟩
          rw [Device.breaks, hb, Device.breaks]
  | outputFails _ hw =>
      cases Sink.writes hw with
      | broken _ _ hb =>
          refine .inr ⟨?_, _, rfl⟩
          rw [Device.breaks, hb, Device.breaks, Nat.add_assoc]
  | input _ hr =>
      cases Source.reads hr with
      | given _ hb =>
          refine .inl ⟨?_, nofun⟩
          rw [Device.breaks, hb, Device.breaks]
  | inputFails _ hr =>
      cases Source.reads hr with
      | exhausted _ hs hb =>
          refine .inl ⟨?_, ?_⟩
          · rw [Device.breaks, hb, Device.breaks]
          · rintro e ⟨⟩
            exact ⟨rfl, hs⟩
      | broken _ hb =>
          refine .inr ⟨?_, _, rfl⟩
          rw [Device.breaks, hb, Device.breaks, Nat.add_right_comm]

structure Mirrors (d d₀ : Device) : Prop where
  tape : d₀.tape = d.tape
  input : d.input.Mirrors d₀.input
  output : d.output.Mirrors d₀.output

theorem mirrors_erased (d : Device) : d.Mirrors d.erased :=
  ⟨rfl, d.input.mirrors_erased, d.output.mirrors_erased⟩

theorem Mirrors.cell {d d₀ : Device} (h : d.Mirrors d₀) : d₀.cell = d.cell := by
  rw [Device.cell, h.tape, Device.cell]

theorem Mirrors.effect {i : Option Instruction} {d d₀ d₀' : Device} {r : Except Failure Unit}
    (h : d.Mirrors d₀) (he : Effect i d₀ r d₀') :
    (∃ d', Effect i d r d' ∧ d'.Mirrors d₀' ∧ d'.breaks = d.breaks) ∨
      ∃ e d', Effect i d (.error (.transfer e)) d' ∧ d'.Mirrors d₀ ∧
        d.breaks = d'.breaks + 1 := by
  obtain ⟨tape, input, output⟩ := d
  obtain ⟨tape₀, input₀, output₀⟩ := d₀
  obtain ⟨ht, hi, ho⟩ := h
  change tape₀ = tape at ht
  subst ht
  cases he with
  | commentary => exact .inl ⟨_, .commentary _, ⟨rfl, hi, ho⟩, rfl⟩
  | increment => exact .inl ⟨_, .increment _, ⟨rfl, hi, ho⟩, rfl⟩
  | decrement => exact .inl ⟨_, .decrement _, ⟨rfl, hi, ho⟩, rfl⟩
  | moveRight _ hm =>
      exact .inl ⟨_, .moveRight ⟨tape₀, input, output⟩ hm, ⟨rfl, hi, ho⟩, rfl⟩
  | rightEdge _ hm => exact .inl ⟨_, .rightEdge _ hm, ⟨rfl, hi, ho⟩, rfl⟩
  | moveLeft _ hm => exact .inl ⟨_, .moveLeft _ hm, ⟨rfl, hi, ho⟩, rfl⟩
  | leftEdge _ hm => exact .inl ⟨_, .leftEdge _ hm, ⟨rfl, hi, ho⟩, rfl⟩
  | output _ hw =>
      rcases ho.write hw with ⟨s', hs', hm, hb⟩ | ⟨e, s', hs', hm, hb⟩
      · refine .inl ⟨_, .output _ hs', ⟨rfl, hi, hm⟩, ?_⟩
        rw [breaks, breaks, hb]
      · refine .inr ⟨e, _, .outputFails _ hs', ⟨rfl, hi, hm⟩, ?_⟩
        rw [breaks, breaks, hb]
        rfl
  | outputFails _ hw =>
      rcases ho.write hw with ⟨s', hs', hm, hb⟩ | ⟨e, s', hs', hm, hb⟩
      · refine .inl ⟨_, .outputFails _ hs', ⟨rfl, hi, hm⟩, ?_⟩
        rw [breaks, breaks, hb]
      · refine .inr ⟨e, _, .outputFails _ hs', ⟨rfl, hi, hm⟩, ?_⟩
        rw [breaks, breaks, hb]
        rfl
  | input _ hr =>
      rcases hi.read hr with ⟨s', hs', hm, hb⟩ | ⟨e, s', hs', hm, hb⟩
      · refine .inl ⟨_, .input _ hs', ⟨rfl, hm, ho⟩, ?_⟩
        rw [breaks, breaks, hb]
      · refine .inr ⟨e, _, .inputFails _ hs', ⟨rfl, hm, ho⟩, ?_⟩
        rw [breaks, breaks, hb, Nat.add_right_comm]
  | inputFails _ hr =>
      rcases hi.read hr with ⟨s', hs', hm, hb⟩ | ⟨e, s', hs', hm, hb⟩
      · refine .inl ⟨_, .inputFails _ hs', ⟨rfl, hm, ho⟩, ?_⟩
        rw [breaks, breaks, hb]
      · refine .inr ⟨e, _, .inputFails _ hs', ⟨rfl, hm, ho⟩, ?_⟩
        rw [breaks, breaks, hb, Nat.add_right_comm]

end Device

namespace Machine

theorem Transition.breaks {m m' : Machine} {r : Except ExecutionError Step}
    (h : Transition m r m') :
    m'.device.breaks = m.device.breaks ∧ (∀ position e, r = .error (.transfer position e) →
        e = ⟨.read, .count 0⟩ ∧ m'.device.input.supply = []) ∨
      m.device.breaks = m'.device.breaks + 1 ∧ ∃ position e, r = .error (.transfer position e) := by
  cases h with
  | halted => exact .inl ⟨rfl, nofun⟩
  | atom hb ha he =>
      rcases he.breaks with ⟨hbreaks, -⟩ | ⟨-, e, hr⟩
      · exact .inl ⟨hbreaks, nofun⟩
      · cases hr
  | @atomFails b f d hb ha he =>
      rcases he.breaks with ⟨hbreaks, hend⟩ | ⟨hbreaks, e, hr⟩
      · refine .inl ⟨hbreaks, ?_⟩
        intro position e hr
        cases f with
        | transfer e' =>
            cases hr
            exact hend e rfl
        | outOfRange => cases hr
      · cases hr
        exact .inr ⟨hbreaks, _, e, rfl⟩
  | enterLoop => exact .inl ⟨rfl, nofun⟩
  | skipLoop => exact .inl ⟨rfl, nofun⟩
  | unclosed => exact .inl ⟨rfl, nofun⟩
  | leaveLoop => exact .inl ⟨rfl, nofun⟩
  | repeatLoop => exact .inl ⟨rfl, nofun⟩
  | unopened => exact .inl ⟨rfl, nofun⟩

theorem Run.breaks {m m' : Machine} {bytes : List UInt8} {r : Except ExecutionError RunStats}
    (h : Run m bytes r m') :
    m'.device.breaks = m.device.breaks ∧ (∀ position e, r = .error (.transfer position e) →
        e = ⟨.read, .count 0⟩ ∧ m'.device.input.supply = []) ∨
      m.device.breaks = m'.device.breaks + 1 ∧ ∃ position e, r = .error (.transfer position e) := by
  induction h with
  | stop hs =>
      cases hs with
      | halt => exact .inl ⟨rfl, nofun⟩
      | limit => exact .inl ⟨rfl, nofun⟩
      | fail hl ht =>
          rcases ht.breaks with ⟨hbreaks, hend⟩ | ⟨hbreaks, position, e, hr⟩
          · refine .inl ⟨hbreaks, ?_⟩
            rintro position e ⟨⟩
            exact hend position e rfl
          · cases hr
            exact .inr ⟨hbreaks, position, e, rfl⟩
  | step hl hb ht _ ih =>
      rcases ht.breaks with ⟨hbreaks, -⟩ | ⟨-, position, e, hr⟩
      · rwa [hbreaks] at ih
      · cases hr

def erased (m : Machine) : Machine :=
  { m with device := m.device.erased }

structure Mirrors (m m₀ : Machine) : Prop where
  frame : m₀ = { m with device := m₀.device }
  device : m.device.Mirrors m₀.device

theorem mirrors_erased (m : Machine) : m.Mirrors m.erased :=
  ⟨rfl, m.device.mirrors_erased⟩

namespace Mirrors

variable {m m₀ m₀' : Machine}

theorem program (h : m.Mirrors m₀) : m₀.program = m.program := by
  rw [h.frame]

theorem ip (h : m.Mirrors m₀) : m₀.ip = m.ip := by
  rw [h.frame]

theorem stats (h : m.Mirrors m₀) : m₀.stats = m.stats := by
  rw [h.frame]

theorem log (h : m.Mirrors m₀) : m₀.log = m.log := by
  rw [h.frame]

theorem isHalted (h : m.Mirrors m₀) : m₀.isHalted = m.isHalted := by
  rw [h.frame]
  rfl

theorem limitReached? (h : m.Mirrors m₀) : m₀.limitReached? = m.limitReached? := by
  rw [h.frame]
  rfl

theorem record (h : m.Mirrors m₀) (e : Event) : (m.record e).Mirrors (m₀.record e) := by
  refine ⟨?_, h.device⟩
  rw [h.frame]
  rfl

theorem transition {r : Except ExecutionError Step} (h : m.Mirrors m₀)
    (ht : Transition m₀ r m₀') :
    (∃ m', Transition m r m' ∧ m'.Mirrors m₀' ∧ m'.device.breaks = m.device.breaks) ∨
      ∃ position e m', Transition m (.error (.transfer position e)) m' ∧ m'.Mirrors m₀ ∧
        m.device.breaks = m'.device.breaks + 1 := by
  obtain ⟨program, device, ip, stats, stepLimit, log⟩ := m
  obtain ⟨program₀, device₀, ip₀, stats₀, stepLimit₀, log₀⟩ := m₀
  obtain ⟨hf, hd⟩ := h
  cases hf
  have hcell := hd.cell
  cases ht with
  | halted hb => exact .inl ⟨_, .halted hb, ⟨rfl, hd⟩, rfl⟩
  | atom hb ha he =>
      rcases hd.effect he with ⟨d', he', hd', hbreaks⟩ | ⟨e, d', he', hd', hbreaks⟩
      · exact .inl ⟨_, .atom hb ha he', ⟨rfl, hd'⟩, hbreaks⟩
      · exact .inr ⟨_, e, _, .transferFails hb ha he', ⟨rfl, hd'⟩, hbreaks⟩
  | atomFails hb ha he =>
      rcases hd.effect he with ⟨d', he', hd', hbreaks⟩ | ⟨e, d', he', hd', hbreaks⟩
      · exact .inl ⟨_, .atomFails hb ha he', ⟨rfl, hd'⟩, hbreaks⟩
      · exact .inr ⟨_, e, _, .transferFails hb ha he', ⟨rfl, hd'⟩, hbreaks⟩
  | enterLoop hb hc =>
      rw [hcell] at hc
      exact .inl ⟨_, .enterLoop hb hc, ⟨rfl, hd⟩, rfl⟩
  | skipLoop hb hc htarget =>
      rw [hcell] at hc
      exact .inl ⟨_, .skipLoop hb hc htarget, ⟨rfl, hd⟩, rfl⟩
  | unclosed hb hc htarget =>
      rw [hcell] at hc
      exact .inl ⟨_, .unclosed hb hc htarget, ⟨rfl, hd⟩, rfl⟩
  | leaveLoop hb hc =>
      rw [hcell] at hc
      exact .inl ⟨_, .leaveLoop hb hc, ⟨rfl, hd⟩, rfl⟩
  | repeatLoop hb hc htarget =>
      rw [hcell] at hc
      exact .inl ⟨_, .repeatLoop hb hc htarget, ⟨rfl, hd⟩, rfl⟩
  | unopened hb hc htarget =>
      rw [hcell] at hc
      exact .inl ⟨_, .unopened hb hc htarget, ⟨rfl, hd⟩, rfl⟩

theorem run {bytes : List UInt8} {r : Except ExecutionError RunStats} (h : m.Mirrors m₀)
    (hr : Run m₀ bytes r m₀') :
    (∃ m', Run m bytes r m' ∧ m'.Mirrors m₀' ∧ m'.device.breaks = m.device.breaks) ∨
      ∃ before position e m₁ rest m₁₀, Run m before (.error (.transfer position e)) m₁ ∧
        m.device.breaks = m₁.device.breaks + 1 ∧ m₁.Mirrors m₁₀ ∧ Run m₁₀ rest r m₀' := by
  induction hr generalizing m with
  | @stop m₀ m₀' r hs =>
      cases hs with
      | halt hh =>
          rw [h.stats]
          rw [h.isHalted] at hh
          exact .inl ⟨_, .stop (.halt hh), h.record _, rfl⟩
      | limit hh hl =>
          rw [h.ip]
          rw [h.isHalted] at hh
          rw [h.limitReached?] at hl
          exact .inl ⟨_, .stop (.limit hh hl), h.record _, rfl⟩
      | fail hl ht =>
          have hl' := h.limitReached?.symm.trans hl
          rcases h.transition ht with ⟨m', ht', hm', hb⟩ | ⟨position, e, m', ht', hm', hb⟩
          · exact .inl ⟨m', .stop (.fail hl' ht'), hm', hb⟩
          · exact .inr ⟨_, position, e, m', _, m₀, .stop (.fail hl' ht'), hb, hm',
              .stop (.fail hl ht)⟩
  | @step m₀ m₁₀ m₀' b bytes r hl hb ht hr ih =>
      have hl' := h.limitReached?.symm.trans hl
      rcases h.transition ht with ⟨m₁, ht', hm₁, hbreaks⟩ | ⟨position, e, m', ht', hm', hbreaks⟩
      · rw [h.program, h.ip] at hb
        rcases ih hm₁ with ⟨m', hr', hm', hbreaks'⟩ |
          ⟨before, position, e, m₂, rest, m₂₀, hr', hbreaks', hm₂, hrest⟩
        · exact .inl ⟨m', .step hl' hb ht' hr', hm', hbreaks'.trans hbreaks⟩
        · exact .inr ⟨_, position, e, m₂, rest, m₂₀, .step hl' hb ht' hr',
            hbreaks.symm.trans hbreaks', hm₂, hrest⟩
      · exact .inr ⟨_, position, e, m', _, m₀, .stop (.fail hl' ht'), hbreaks, hm',
          .step hl hb ht hr⟩

end Mirrors

/-- Runs one after another, each begun again where the one before broke; whether a run broke shows
in the count. -/
inductive Resumes : Nat → Machine → Except ExecutionError RunStats → Machine → Prop
  | last {m m' : Machine} {fuel : Nat} {r : Except ExecutionError RunStats}
      (hr : m.run fuel = (some r, m')) (hb : m'.device.breaks = m.device.breaks) :
      Resumes 1 m r m'
  | again {m m₁ m' : Machine} {fuel position calls : Nat} {e : TransferError}
      {r : Except ExecutionError RunStats}
      (hr : m.run fuel = (some (.error (.transfer position e)), m₁))
      (hb : m.device.breaks = m₁.device.breaks + 1) (h : Resumes calls m₁ r m') :
      Resumes (calls + 1) m r m'

theorem Mirrors.resumes {m m₀ m₀' : Machine} {bytes : List UInt8}
    {r : Except ExecutionError RunStats} (h : m.Mirrors m₀) (hr : Run m₀ bytes r m₀') :
    ∃ calls m', calls ≤ 1 + m.device.breaks ∧ Resumes calls m r m' ∧ m'.Mirrors m₀' := by
  -- Every restart stands one break further on, so the breaks ahead bound the restarts.
  induction hn : m.device.breaks generalizing m m₀ bytes with
  | zero =>
      rcases h.run hr with ⟨m', hr', hm', hb⟩ | ⟨before, position, e, m₁, rest, m₁₀, -, hb, -⟩
      · obtain ⟨fuel, hf⟩ := hr'.exists_fuel
        exact ⟨1, m', Nat.le_refl 1, .last hf hb, hm'⟩
      · omega
  | succ n ih =>
      rcases h.run hr with ⟨m', hr', hm', hb⟩ |
        ⟨before, position, e, m₁, rest, m₁₀, hr', hb, hm₁, hrest⟩
      · obtain ⟨fuel, hf⟩ := hr'.exists_fuel
        exact ⟨1, m', Nat.le_add_right 1 _, .last hf hb, hm'⟩
      · obtain ⟨fuel, hf⟩ := hr'.exists_fuel
        obtain ⟨calls, m', hc, hres, hm'⟩ := ih hm₁ hrest (by omega)
        exact ⟨calls + 1, m', by omega, .again hf hb hres, hm'⟩

theorem faults_resume (m : Machine) (fuel : Nat) {r : Except ExecutionError RunStats}
    {m₀ : Machine} (h : m.erased.run fuel = (some r, m₀)) :
    ∃ calls m', calls ≤ 1 + m.device.erasedCount ∧ Resumes calls m r m' ∧ m'.ip = m₀.ip ∧
      m'.device.tape = m₀.device.tape ∧ m'.stats = m₀.stats ∧
      m'.device.output.stored = m₀.device.output.stored ∧
      m'.device.input.left = m₀.device.input.left ∧ m'.log = m₀.log := by
  obtain ⟨calls, m', hc, hres, hm'⟩ := m.mirrors_erased.resumes (Run.of_run h)
  have hle := m.device.breaks_le_erasedCount
  refine ⟨calls, m', by omega, hres, hm'.ip.symm, hm'.device.tape.symm, hm'.stats.symm,
    hm'.device.output.stored.symm, hm'.device.input.left_eq, hm'.log.symm⟩

theorem faults_resume_echo :
    let m := start (Program.ofList [44, 46]) { tapeLength := 4 }
      (.ofEvents [.fail ⟨.interrupted, "signal"⟩, .claim 0, .data [7, 8]])
      (.ofEvents [.fail ⟨.other "BrokenPipe", "gone"⟩, .claim 2])
    m.erased.run 3 = (some (.ok ⟨2, 0, 1, 1⟩), (m.erased.run 3).2) ∧
      ∃ calls m', calls ≤ 1 + m.device.erasedCount ∧ Resumes calls m (.ok ⟨2, 0, 1, 1⟩) m' ∧
        m'.ip = (m.erased.run 3).2.ip ∧ m'.device.tape = (m.erased.run 3).2.device.tape ∧
        m'.stats = (m.erased.run 3).2.stats ∧
        m'.device.output.stored = (m.erased.run 3).2.device.output.stored ∧
        m'.device.input.left = (m.erased.run 3).2.device.input.left ∧
        m'.log = (m.erased.run 3).2.log :=
  ⟨by decide, faults_resume _ 3 (by decide)⟩

end Machine

end TapeLang
