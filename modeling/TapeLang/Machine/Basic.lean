import TapeLang.Event
import TapeLang.Machine.Device
import TapeLang.Program.Pairing

namespace TapeLang

structure Machine where
  program : Program
  device : Device
  ip : Nat
  stats : RunStats
  stepLimit : Option UInt64
  log : Log
  deriving DecidableEq, Repr

inductive Step where
  | executed
  | halted
  deriving DecidableEq, Repr

namespace Machine

def start (program : Program) (config : Config) (input : Source) (output : Sink) : Machine :=
  ⟨program, ⟨Tape.ofLength config.tapeLength, input, output⟩, 0, .zero, config.stepLimit, #[]⟩

def isHalted (m : Machine) : Bool :=
  m.program.size ≤ m.ip

def record (m : Machine) (e : Event) : Machine :=
  { m with log := m.log.push e }

def advance (m : Machine) : Machine :=
  { m with ip := m.ip + 1, stats := m.stats.afterStep }

def jump (m : Machine) (e : Event) (target : Nat) : Machine :=
  { m with ip := target + 1, stats := m.stats.afterJump, log := m.log.push e }

def executeAtom (m : Machine) (b : UInt8) : Except ExecutionError Step × Machine :=
  match m with
  | ⟨program, device, ip, stats, stepLimit, log⟩ =>
      match device.perform ip b with
      | (.ok (), device) =>
          (.ok .executed,
            ⟨program, device, ip + 1, stats.afterAtom (Instruction.ofByte? b), stepLimit, log⟩)
      | (.error e, device) => (.error e, ⟨program, device, ip, stats, stepLimit, log⟩)

def executeLoopStart (m : Machine) : Except ExecutionError Step × Machine :=
  if m.device.cell = 0 then
    match m.program.matchingClose m.ip with
    | some target => (.ok .executed, m.jump (.skipLoop m.ip target) target)
    | none => (.error (.unmatchedDelimiter m.ip), m)
  else (.ok .executed, m.advance)

def executeLoopEnd (m : Machine) : Except ExecutionError Step × Machine :=
  if m.device.cell = 0 then (.ok .executed, m.advance)
  else
    match m.program.matchingOpen m.ip with
    | some target => (.ok .executed, m.jump (.repeatLoop m.ip target) target)
    | none => (.error (.unmatchedDelimiter m.ip), m)

/-- Executes the byte under the instruction pointer, whatever the step limit. -/
def step (m : Machine) : Except ExecutionError Step × Machine :=
  match m.program.code[m.ip]? with
  | none => (.ok .halted, m)
  | some b =>
      if b = Instruction.loopStart.byte then m.executeLoopStart
      else if b = Instruction.loopEnd.byte then m.executeLoopEnd
      else m.executeAtom b

theorem step_eq_halted_iff {m m' : Machine} :
    m.step = (.ok .halted, m') ↔ m.isHalted = true ∧ m' = m := by
  unfold step isHalted Program.size
  cases h : m.program.code[m.ip]? with
  | none =>
      have := Array.getElem?_eq_none_iff.1 h
      simp [this, eq_comm]
  | some b =>
      have := (Array.getElem?_eq_some_iff.1 h).1
      have hlt : ¬ m.program.code.size ≤ m.ip := by omega
      simp only [hlt, decide_false, Bool.false_eq_true, false_and, iff_false]
      unfold executeLoopStart executeLoopEnd executeAtom
      repeat' split
      all_goals simp

def limitReached? (m : Machine) : Option UInt64 :=
  m.stepLimit.filter (· ≤ m.stats.steps)

/-- No answer means that the fuel ran out before the run had an end. -/
def run : (fuel : Nat) → Machine → Option (Except ExecutionError RunStats) × Machine
  | 0, m => (none, m)
  | fuel + 1, m =>
      if m.isHalted then (some (.ok m.stats), m.record (.programHalted m.stats))
      else
        match m.limitReached? with
        | some limit =>
            (some (.error (.stepLimitExceeded limit)), m.record (.stepLimitReached limit m.ip))
        | none =>
            match m.step with
            | (.ok _, m) => run fuel m
            | (.error e, m) => (some (.error e), m)

theorem run_add_of_some {fuel : Nat} {m m' : Machine} {r : Except ExecutionError RunStats}
    (h : m.run fuel = (some r, m')) (more : Nat) : m.run (fuel + more) = (some r, m') := by
  induction fuel generalizing m with
  | zero => simp [run] at h
  | succ fuel ih =>
      rw [Nat.succ_add]
      unfold run at h ⊢
      split
      · simpa [*] using h
      · rename_i hm
        rw [if_neg hm] at h
        split
        · rename_i hl
          simpa [hl] using h
        · rename_i hl
          simp only [hl] at h
          split
          · rename_i hs
            rw [hs] at h
            exact ih h
          · rename_i hs
            rw [hs] at h
            exact h

/-- Runs a program on a fresh tape of the default length, without validating it. -/
def execute (fuel : Nat) (program : Program) (input : Source) (output : Sink) :
    Option (Except ExecutionError RunStats) × Machine :=
  (start program {} input output).run fuel

end Machine

end TapeLang
