import TapeLang.Proofs.Interpretation
import TapeLang.Proofs.Machine.Run
import TapeLang.Proofs.Program.Rank

namespace TapeLang

def RunStats.Alike (s t : RunStats) : Prop :=
  t = { s with steps := t.steps }

namespace RunStats.Alike

variable {s t : RunStats}

theorem afterAtom (h : s.Alike t) (i : Option Instruction) :
    (s.afterAtom i).Alike (t.afterAtom i) := by
  obtain ⟨steps, jumps, bytesRead, bytesWritten⟩ := t
  obtain ⟨rfl, rfl, rfl⟩ : jumps = s.jumps ∧ bytesRead = s.bytesRead ∧
      bytesWritten = s.bytesWritten := by simpa [Alike] using h
  cases i with
  | none => rfl
  | some i => cases i <;> rfl

theorem afterStep (h : s.Alike t) : s.afterStep.Alike t.afterStep :=
  h.afterAtom none

theorem afterJump (h : s.Alike t) : s.afterJump.Alike t.afterJump := by
  obtain ⟨steps, jumps, bytesRead, bytesWritten⟩ := t
  obtain ⟨rfl, rfl, rfl⟩ : jumps = s.jumps ∧ bytesRead = s.bytesRead ∧
      bytesWritten = s.bytesWritten := by simpa [Alike] using h
  rfl

end RunStats.Alike

namespace Machine

/-- The second machine runs the program of the first one without its commentary and stands where
the first one stands. Under a step limit it has not made more steps. -/
structure Strips (m q : Machine) : Prop where
  program : q.program = m.program.strip
  ip : q.ip = m.program.rank m.ip
  device : q.device = m.device
  stats : m.stats.Alike q.stats
  stepLimit : q.stepLimit = m.stepLimit
  steps_le : m.stepLimit ≠ none → q.stats.steps ≤ m.stats.steps

namespace Strips

variable {m m₁ q : Machine} {b : UInt8}

theorem record (h : Strips m q) (e e' : Event) : Strips (m.record e) (q.record e') :=
  ⟨h.program, h.ip, h.device, h.stats, h.stepLimit, h.steps_le⟩

theorem halted (h : Strips m q) (hh : m.isHalted = true) : q.isHalted = true := by
  rw [isHalted, decide_eq_true_eq] at hh ⊢
  have hend : q.ip = q.program.size := by rw [h.ip, h.program, Program.rank_of_size_le hh]
  exact Nat.le_of_eq hend.symm

theorem byte (h : Strips m q) (hb : m.program.code[m.ip]? = some b)
    (hi : isInstruction b = true) : q.program.code[q.ip]? = some b := by
  rw [h.program, h.ip]
  exact Program.strip_byte hb hi

theorem limitReached? (h : Strips m q) (hl : m.limitReached? = none) :
    q.limitReached? = none := by
  rw [limitReached?_eq_none_iff] at hl ⊢
  intro limit hlim
  rw [h.stepLimit] at hlim
  have hle := h.steps_le (by rw [hlim]; exact Option.some_ne_none limit)
  exact UInt64.lt_of_le_of_lt hle (hl limit hlim)

theorem comment (h : Strips m q) (hl : m.limitReached? = none)
    (hb : m.program.code[m.ip]? = some b) (hi : isInstruction b = false) :
    Strips m.advance q := by
  refine ⟨h.program, ?_, h.device, h.stats, h.stepLimit, ?_⟩
  · rw [h.ip]
    change m.program.rank m.ip = m.program.rank (m.ip + 1)
    rw [Program.rank_succ hb, hi]
    rfl
  · intro hlim
    have hle := UInt64.le_iff_toNat_le.1 (h.steps_le hlim)
    have hlt := steps_lt_of_limit hl hlim
    change q.stats.steps ≤ m.stats.steps + 1
    rw [UInt64.le_iff_toNat_le, UInt64.toNat_add]
    change q.stats.steps.toNat ≤ (m.stats.steps.toNat + 1) % UInt64.size
    rw [Nat.mod_eq_of_lt hlt]
    omega

theorem both {q₁ : Machine} (h : Strips m q) (hl : m.limitReached? = none)
    (ht : Transition m (.ok .executed) m₁) (hq : Transition q (.ok .executed) q₁)
    (hip : q₁.ip = m.program.rank m₁.ip) (hd : q₁.device = m₁.device)
    (hs : m₁.stats.Alike q₁.stats) : Strips m₁ q₁ := by
  refine ⟨?_, ?_, hd, hs, ?_, ?_⟩
  · rw [hq.program_eq, ht.program_eq, h.program]
  · rw [hip, ht.program_eq]
  · rw [hq.stepLimit_eq, ht.stepLimit_eq, h.stepLimit]
  · intro hlim
    rw [ht.stepLimit_eq] at hlim
    have hle := UInt64.le_iff_toNat_le.1 (h.steps_le hlim)
    have hlt := steps_lt_of_limit hl hlim
    rw [ht.steps_eq, hq.steps_eq, UInt64.le_iff_toNat_le, UInt64.toNat_add, UInt64.toNat_add]
    change (q.stats.steps.toNat + 1) % UInt64.size ≤ (m.stats.steps.toNat + 1) % UInt64.size
    rw [Nat.mod_eq_of_lt hlt, Nat.mod_eq_of_lt (by omega)]
    omega

theorem instruction (h : Strips m q) (hl : m.limitReached? = none)
    (hb : m.program.code[m.ip]? = some b) (hi : isInstruction b = true)
    (ht : Transition m (.ok .executed) m₁) :
    ∃ q₁, Transition q (.ok .executed) q₁ ∧ Strips m₁ q₁ := by
  have hqb := h.byte hb hi
  have hnext : ∀ {i c}, m.program.code[i]? = some c → isInstruction c = true →
      m.program.rank (i + 1) = m.program.rank i + 1 := by
    intro i c hc hic
    rw [Program.rank_succ hc, if_pos hic]
  have hdev := h.device
  have htm := ht
  cases ht with
  | atom hb' ha he =>
      obtain rfl := Option.some.inj (hb.symm.trans hb')
      rw [← hdev] at he
      have hq := Transition.atom hqb ha he
      refine ⟨_, hq, h.both hl htm hq ?_ rfl (h.stats.afterAtom _)⟩
      rw [h.ip]
      exact (hnext hb hi).symm
  | enterLoop hb' hc =>
      obtain rfl := Option.some.inj (hb.symm.trans hb')
      rw [← hdev] at hc
      have hq := Transition.enterLoop hqb hc
      refine ⟨_, hq, h.both hl htm hq ?_ hdev h.stats.afterStep⟩
      rw [advance, h.ip]
      exact (hnext hb hi).symm
  | leaveLoop hb' hc =>
      obtain rfl := Option.some.inj (hb.symm.trans hb')
      rw [← hdev] at hc
      have hq := Transition.leaveLoop hqb hc
      refine ⟨_, hq, h.both hl htm hq ?_ hdev h.stats.afterStep⟩
      rw [advance, h.ip]
      exact (hnext hb hi).symm
  | @skipLoop target hb' hc htarget =>
      obtain rfl := Option.some.inj (hb.symm.trans hb')
      rw [← hdev] at hc
      have htq : q.program.matchingClose q.ip = some (m.program.rank target) := by
        rw [h.program, h.ip, Program.matchingClose_strip hb, htarget, Option.map_some]
      have hq := Transition.skipLoop hqb hc htq
      refine ⟨_, hq, h.both hl htm hq ?_ hdev h.stats.afterJump⟩
      exact (hnext (Program.byte_of_matchingClose htarget) (isInstruction_byte _)).symm
  | @repeatLoop target hb' hc htarget =>
      obtain rfl := Option.some.inj (hb.symm.trans hb')
      rw [← hdev] at hc
      have hip : m.ip ≤ m.program.size := Nat.le_of_lt (Array.getElem?_eq_some_iff.1 hb).1
      have htq : q.program.matchingOpen q.ip = some (m.program.rank target) := by
        rw [h.program, h.ip, Program.matchingOpen_strip hip, htarget, Option.map_some]
      have hq := Transition.repeatLoop hqb hc htq
      refine ⟨_, hq, h.both hl htm hq ?_ hdev h.stats.afterJump⟩
      exact (hnext (Program.byte_of_matchingOpen hip htarget) (isInstruction_byte _)).symm

theorem error {e : ExecutionError} {m' : Machine} (h : Strips m q)
    (ht : Transition m (.error e) m') :
    ∃ q', Transition q (.error (e.relocate m.program.rank)) q' ∧ Strips m' q' := by
  have hdev := h.device
  cases ht with
  | @atomFails b f d hb ha he =>
      have hi : isInstruction b = true := by
        cases hn : Instruction.ofByte? b with
        | none =>
            rw [hn] at he
            cases he
        | some i => rw [isInstruction, hn, Option.isSome_some]
      rw [← hdev] at he
      refine ⟨{ q with device := d }, ?_, h.program, h.ip, rfl, h.stats, h.stepLimit,
        h.steps_le⟩
      rw [Failure.relocate_located, ← h.ip]
      exact .atomFails (h.byte hb hi) ha he
  | unclosed hb hc htarget =>
      rw [← hdev] at hc
      refine ⟨q, ?_, h⟩
      rw [ExecutionError.relocate, ← h.ip]
      refine .unclosed (h.byte hb (isInstruction_byte _)) hc ?_
      rw [h.program, h.ip, Program.matchingClose_strip hb, htarget, Option.map_none]
  | unopened hb hc htarget =>
      rw [← hdev] at hc
      have hip : m.ip ≤ m.program.size := Nat.le_of_lt (Array.getElem?_eq_some_iff.1 hb).1
      refine ⟨q, ?_, h⟩
      rw [ExecutionError.relocate, ← h.ip]
      refine .unopened (h.byte hb (isInstruction_byte _)) hc ?_
      rw [h.program, h.ip, Program.matchingOpen_strip hip, htarget, Option.map_none]

end Strips

def strippedAnswer (p : Program) (q : Machine) :
    Except ExecutionError RunStats → Except ExecutionError RunStats
  | .ok _ => .ok q.stats
  | .error e => .error (e.relocate p.rank)

theorem Run.strip {m m' q : Machine} {bytes : List UInt8} {r : Except ExecutionError RunStats}
    (h : Run m bytes r m') (hq : Strips m q)
    (hr : ∀ limit, r ≠ .error (.stepLimitExceeded limit)) :
    ∃ q', Run q (bytes.filter isInstruction) (strippedAnswer m.program q' r) q' ∧
      Strips m' q' := by
  induction h generalizing q with
  | stop hs =>
      cases hs with
      | halt hh =>
          exact ⟨q.record (.programHalted q.stats), .stop (.halt (hq.halted hh)), hq.record _ _⟩
      | limit => exact absurd rfl (hr _)
      | fail hl ht =>
          obtain ⟨q', htq, hq'⟩ := hq.error ht
          exact ⟨q', .stop (.fail (hq.limitReached? hl) htq), hq'⟩
  | @step m m₁ m' b bytes r hl hb ht _ ih =>
      rw [← ht.program_eq]
      by_cases hi : isInstruction b = true
      · obtain ⟨q₁, htq, hq₁⟩ := hq.instruction hl hb hi ht
        obtain ⟨q', hrun, hq'⟩ := ih hq₁ hr
        rw [List.filter_cons_of_pos hi]
        exact ⟨q', .step (hq.limitReached? hl) (hq.byte hb hi) htq hrun, hq'⟩
      · rw [List.filter_cons_of_neg hi]
        rw [Bool.not_eq_true] at hi
        -- The stripped machine waits.
        obtain rfl := ((Transition.commentary hb hi).deterministic ht).2
        exact ih (hq.comment hl hb hi) hr

theorem Strips.skipComments {m q : Machine} (h : Strips m q) (hn : m.stepLimit = none) :
    ∃ bytes m₁, Steps m bytes m₁ ∧ Strips m₁ q ∧
      ∀ b, m₁.program.code[m₁.ip]? = some b → isInstruction b = true := by
  induction hd : m.program.size - m.ip generalizing m with
  | zero =>
      refine ⟨[], m, .refl m, h, fun b hb => ?_⟩
      have hlt : m.ip < m.program.size := (Array.getElem?_eq_some_iff.1 hb).1
      omega
  | succ left ih =>
      have hl := limitReached?_of_none hn
      by_cases hc : ∃ b, m.program.code[m.ip]? = some b ∧ isInstruction b = false
      · obtain ⟨b, hb, hi⟩ := hc
        have ht := Transition.commentary hb hi
        obtain ⟨bytes, m₁, hs, hm₁⟩ := ih (h.comment hl hb hi) hn (by
          change m.program.size - (m.ip + 1) = left
          omega)
        exact ⟨b :: bytes, m₁, .cons hb ht hs, hm₁⟩
      · refine ⟨[], m, .refl m, h, fun b hb => ?_⟩
        by_contra hi
        exact hc ⟨b, hb, Bool.not_eq_true _ ▸ hi⟩

theorem Strips.progress {m q : Machine} (h : Strips m q) (hn : m.stepLimit = none) :
    (∃ bytes r m', Run m bytes r m') ∨ ∃ bytes m₁ q₁, Steps m bytes m₁ ∧
      Transition q (.ok .executed) q₁ ∧ Strips m₁ q₁ := by
  obtain ⟨bytes, m₁, hs, hq, hi⟩ := h.skipComments hn
  rcases m₁.stops_or_executes with ⟨r, m', hstop⟩ | ⟨hl, m₂, ht⟩
  · exact .inl ⟨_, r, m', hs.run hn (.stop hstop)⟩
  · obtain ⟨b, hb⟩ := ht.exists_byte
    obtain ⟨q₁, htq, hq₁⟩ := hq.instruction hl hb (hi b hb) ht
    exact .inr ⟨_, m₂, q₁, hs.trans (.single hb ht), htq, hq₁⟩

theorem Run.unstrip {m q q' : Machine} {bytes : List UInt8}
    {r : Except ExecutionError RunStats} (h : Run q bytes r q') (hq : Strips m q)
    (hn : m.stepLimit = none) : ∃ bytes' r' m', Run m bytes' r' m' := by
  induction h generalizing m with
  | @stop q q' r hs =>
      rcases hq.progress hn with hrun | ⟨before, m₁, q₁, -, htq, -⟩
      · exact hrun
      · have hl := limitReached?_of_none (hq.stepLimit.trans hn)
        obtain ⟨b, rest, -, hnil, -⟩ := (Run.stop hs).of_executed hl htq
        cases hnil
  | step hl hb ht hr ih =>
      rcases hq.progress hn with hrun | ⟨before, m₁, q₁, hs, htq, hq₁⟩
      · exact hrun
      · obtain rfl := (ht.deterministic htq).2
        obtain ⟨bytes', r', m', hrun⟩ := ih hq₁ (hs.stepLimit_eq.trans hn)
        exact ⟨_, r', m', hs.run hn hrun⟩

end Machine

def InterpretError.relocate (g : Nat → Nat) : InterpretError → InterpretError
  | .load e => .load e
  | .validation e => .validation (e.relocate g)
  | .execution e => .execution (e.relocate g)

structure RunStats.LacksComments (bytes : List UInt8) (s t : RunStats) : Prop where
  jumps : t.jumps = s.jumps
  bytesRead : t.bytesRead = s.bytesRead
  bytesWritten : t.bytesWritten = s.bytesWritten
  steps : bytes.length < UInt64.size →
    s.steps.toNat = t.steps.toNat + bytes.countP fun b => !isInstruction b

inductive SameAnswer {ε : Type} (relocate : ε → ε) (bytes : List UInt8) :
    Except ε RunStats → Except ε RunStats → Prop
  | ok {s t : RunStats} (h : s.LacksComments bytes t) : SameAnswer relocate bytes (.ok s) (.ok t)
  | error (e : ε) : SameAnswer relocate bytes (.error e) (.error (relocate e))

namespace Machine

theorem Strips.start (p : Program) (config : Config) (input : Source) (output : Sink) :
    Strips (start p config input output) (start p.strip config input output) :=
  ⟨rfl, rfl, rfl, rfl, rfl, fun _ => UInt64.le_refl _⟩

theorem length_filter_add_countP (bytes : List UInt8) :
    (bytes.filter isInstruction).length + bytes.countP (fun b => !isInstruction b) =
      bytes.length := by
  rw [← List.countP_eq_length_filter, List.length_eq_countP_add_countP isInstruction]
  simp

theorem Strips.lacksComments {m m' q q' : Machine} {bytes : List UInt8}
    {r r' : Except ExecutionError RunStats} (h : Run m bytes r m')
    (hq : Run q (bytes.filter isInstruction) r' q') (hs : Strips m' q')
    (hm : m.stats.steps = 0) (hq0 : q.stats.steps = 0) :
    m'.stats.LacksComments bytes q'.stats := by
  refine ⟨?_, ?_, ?_, ?_⟩
  · rw [hs.stats]
  · rw [hs.stats]
  · rw [hs.stats]
  · intro hlt
    have hsum := length_filter_add_countP bytes
    rw [h.steps_eq, hq.steps_eq, hm, hq0, UInt64.zero_add, UInt64.zero_add,
      UInt64.toNat_ofNat_of_lt' hlt, UInt64.toNat_ofNat_of_lt' (by omega)]
    exact hsum.symm

theorem exists_stripped_run {p : Program} {config : Config} {input : Source} {output : Sink}
    {fuel : Nat} {r : Except ExecutionError RunStats} {m' : Machine}
    (h : (start p config input output).run fuel = (some r, m'))
    (hr : config.stepLimit = none ∨ ∀ limit, r ≠ .error (.stepLimitExceeded limit)) :
    ∃ fuel' r' q', (start p.strip config input output).run fuel' = (some r', q') ∧
      (start p.strip config input output).executed fuel' =
        ((start p config input output).executed fuel).filter isInstruction ∧
      SameAnswer (.relocate p.rank) ((start p config input output).executed fuel) r r' ∧
      q'.ip = p.rank m'.ip ∧ q'.device = m'.device ∧
      m'.stats.LacksComments ((start p config input output).executed fuel) q'.stats := by
  have hrun := Run.of_run h
  have hne : ∀ limit, r ≠ .error (.stepLimitExceeded limit) := by
    rcases hr with hn | hr
    · exact hrun.ne_stepLimitExceeded hn
    · exact hr
  obtain ⟨q', hq, hs⟩ := hrun.strip (Strips.start p config input output) hne
  have hlacks := hs.lacksComments hrun hq rfl rfl
  obtain ⟨fuel', hf, he⟩ := run_iff.2 hq
  refine ⟨fuel', _, q', hf, he, ?_, ?_, hs.device, hlacks⟩
  · cases r with
    | ok stats =>
        rw [hrun.stats_of_ok]
        exact .ok hlacks
    | error e => exact .error e
  · rw [hs.ip, hrun.program_eq]
    rfl

theorem run_ends_iff_strip {p : Program} {config : Config} {input : Source} {output : Sink}
    (hn : config.stepLimit = none) :
    (∃ fuel r m', (start p config input output).run fuel = (some r, m')) ↔
      ∃ fuel r q', (start p.strip config input output).run fuel = (some r, q') := by
  constructor
  · rintro ⟨fuel, r, m', h⟩
    obtain ⟨fuel', r', q', hq, -⟩ := exists_stripped_run h (.inl hn)
    exact ⟨fuel', r', q', hq⟩
  · rintro ⟨fuel, r, q', h⟩
    obtain ⟨bytes, r', m', hm⟩ :=
      (Run.of_run h).unstrip (Strips.start p config input output) hn
    obtain ⟨fuel', hf⟩ := hm.exists_fuel
    exact ⟨fuel', r', m', hf⟩

end Machine

section

variable {p : Program} {source stripped input : Source} {output : Sink} {config : Config}
  (hl : (Loader.ofSource source).load.1 = .ok p)
  (hs : (Loader.ofSource stripped).load.1 = .ok p.strip)
include hl hs

theorem exists_stripped_interpretation {fuel : Nat} {r : Except InterpretError RunStats}
    (h : (interpret fuel source input output config).result = some r)
    (hr : config.stepLimit = none ∨
      ∀ limit, r ≠ .error (.execution (.stepLimitExceeded limit))) :
    ∃ fuel' r', (interpret fuel' stripped input output config).result = some r' ∧
      SameAnswer (.relocate p.rank) ((Machine.start p config input output).executed fuel) r r' ∧
      (interpret fuel' stripped input output config).input =
        (interpret fuel source input output config).input ∧
      (interpret fuel' stripped input output config).output =
        (interpret fuel source input output config).output := by
  have hstrip := p.validate_strip config.validation
  cases hv : p.validate config.validation with
  | error e =>
      rw [hv] at hstrip
      obtain ⟨hres, hin, hout⟩ := interpret_of_invalid fuel input output hl hv
      obtain ⟨hres', hin', hout'⟩ := interpret_of_invalid fuel input output hs hstrip
      obtain rfl := Option.some.inj (hres.symm.trans h)
      exact ⟨fuel, _, hres', .error _, hin'.trans hin.symm, hout'.trans hout.symm⟩
  | ok =>
      rw [hv] at hstrip
      obtain ⟨hres, hin, hout⟩ := interpret_of_valid fuel input output hl hv
      obtain ⟨r, hrun, rfl⟩ := Option.map_eq_some_iff.1 (hres.symm.trans h)
      obtain ⟨fuel', r', q', hq, -, hsame, -, hdev, -⟩ :=
        Machine.exists_stripped_run (Prod.ext hrun rfl) (hr.imp_right fun hne limit hlim => by
          rw [hlim] at hne
          exact hne limit rfl)
      obtain ⟨hres', hin', hout'⟩ := interpret_of_valid fuel' input output hs hstrip
      rw [hq] at hres' hin' hout'
      refine ⟨fuel', _, hres', ?_, ?_, ?_⟩
      · cases hsame with
        | ok hlacks => exact .ok hlacks
        | error e => exact .error _
      · rw [hin', hin, hdev]
      · rw [hout', hout, hdev]

theorem interpret_ends_iff_strip (hn : config.stepLimit = none) :
    (∃ fuel r, (interpret fuel source input output config).result = some r) ↔
      ∃ fuel r, (interpret fuel stripped input output config).result = some r := by
  constructor
  · rintro ⟨fuel, r, h⟩
    obtain ⟨fuel', r', hr, -⟩ := exists_stripped_interpretation hl hs h (.inl hn)
    exact ⟨fuel', r', hr⟩
  · rintro ⟨fuel, r, h⟩
    cases hv : p.validate config.validation with
    | error e => exact ⟨fuel, _, (interpret_of_invalid fuel input output hl hv).1⟩
    | ok =>
        have hstrip := p.validate_strip config.validation
        rw [hv] at hstrip
        rw [(interpret_of_valid fuel input output hs hstrip).1] at h
        obtain ⟨r', hrun, -⟩ := Option.map_eq_some_iff.1 h
        obtain ⟨fuel', r, m', hm⟩ :=
          (Machine.run_ends_iff_strip (p := p) hn).2 ⟨fuel, r', _, Prod.ext hrun rfl⟩
        refine ⟨fuel', r.mapError .execution, ?_⟩
        rw [(interpret_of_valid fuel' input output hl hv).1, hm]
        rfl

end

theorem commentary_transparent (p : Program) (config : Config) (input : Source) (output : Sink) :
    (∀ fuel r m', (Machine.start p config input output).run fuel = (some r, m') →
      (config.stepLimit = none ∨ ∀ limit, r ≠ .error (.stepLimitExceeded limit)) →
      ∃ fuel' r' q', (Machine.start p.strip config input output).run fuel' = (some r', q') ∧
        SameAnswer (.relocate p.rank) ((Machine.start p config input output).executed fuel)
          r r' ∧
        q'.ip = p.rank m'.ip ∧ q'.device = m'.device ∧
        m'.stats.LacksComments ((Machine.start p config input output).executed fuel)
          q'.stats) ∧
    (config.stepLimit = none →
      ((∃ fuel r m', (Machine.start p config input output).run fuel = (some r, m')) ↔
        ∃ fuel r q', (Machine.start p.strip config input output).run fuel = (some r, q'))) ∧
    (∀ mode, p.strip.validate mode = (p.validate mode).mapError (·.relocate p.rank)) ∧
    ∀ source stripped, (Loader.ofSource source).load.1 = .ok p →
      (Loader.ofSource stripped).load.1 = .ok p.strip →
      (∀ fuel r, (interpret fuel source input output config).result = some r →
        (config.stepLimit = none ∨
          ∀ limit, r ≠ .error (.execution (.stepLimitExceeded limit))) →
        ∃ fuel' r', (interpret fuel' stripped input output config).result = some r' ∧
          SameAnswer (.relocate p.rank) ((Machine.start p config input output).executed fuel)
            r r' ∧
          (interpret fuel' stripped input output config).input =
            (interpret fuel source input output config).input ∧
          (interpret fuel' stripped input output config).output =
            (interpret fuel source input output config).output) ∧
      (config.stepLimit = none →
        ((∃ fuel r, (interpret fuel source input output config).result = some r) ↔
          ∃ fuel r, (interpret fuel stripped input output config).result = some r)) := by
  refine ⟨?_, Machine.run_ends_iff_strip, p.validate_strip, ?_⟩
  · intro fuel r m' h hr
    obtain ⟨fuel', r', q', hq, -, hrest⟩ := Machine.exists_stripped_run h hr
    exact ⟨fuel', r', q', hq, hrest⟩
  · intro source stripped hl hs
    refine ⟨?_, interpret_ends_iff_strip hl hs⟩
    intro fuel r h hr
    exact exists_stripped_interpretation hl hs h hr

theorem commentary_transparent_echo :
    (interpret 4 (.ofBytes [44, 120, 46]) (.ofBytes [7]) .empty { tapeLength := 4 }).result =
        some (.ok ⟨3, 0, 1, 1⟩) ∧
      ∃ fuel r, (interpret fuel (.ofBytes [44, 46]) (.ofBytes [7]) .empty
          { tapeLength := 4 }).result = some r ∧
        SameAnswer (.relocate (Program.ofList [44, 120, 46]).rank) [44, 120, 46]
          (.ok ⟨3, 0, 1, 1⟩) r := by
  refine ⟨by decide, ?_⟩
  obtain ⟨-, -, -, hinterpret⟩ :=
    commentary_transparent (Program.ofList [44, 120, 46]) { tapeLength := 4 } (.ofBytes [7]) .empty
  obtain ⟨fuel, r, hr, hsame, -⟩ := (hinterpret (.ofBytes [44, 120, 46]) (.ofBytes [44, 46])
    (Loader.load_ofBytes _) (Loader.load_ofBytes _)).1 4 (.ok ⟨3, 0, 1, 1⟩) (by decide) (.inl rfl)
  exact ⟨fuel, r, hr, hsame⟩

end TapeLang
