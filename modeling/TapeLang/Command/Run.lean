import TapeLang.Command.ProgramFile

namespace TapeLang.Command

def statsLines (s : RunStats) : List String :=
  ["Run statistics:",
    "  Steps:          " ++ toString s.steps,
    "  Jumps:          " ++ toString s.jumps,
    "  Bytes read:     " ++ toString s.bytesRead,
    "  Bytes written:  " ++ toString s.bytesWritten]

structure PreparedRun where
  file : String
  stats : Bool
  machine : Machine
  notices : List Notice
  deriving DecidableEq, Repr

namespace PreparedRun

/-- Loads and validates the program before it opens the input. -/
def of (files : Files) (stdin : Source) (file : String) (input : Option String)
    (engine : EngineOptions) (stats : Bool) : Except Outcome PreparedRun :=
  match engine.config? with
  | .error e => .error ⟨[], [], some e⟩
  | .ok config =>
      match readValid files file config.validation with
      | (.error e, notices) => .error ⟨[], notices, some e⟩
      | (.ok program, notices) =>
          match input.elim (.ok stdin) (openFile files) with
          | .error e => .error ⟨[], notices, some e⟩
          | .ok source => .ok ⟨file, stats, .start program config source .empty, notices⟩

def conclude (r : PreparedRun) (result : Except ExecutionError RunStats) : Outcome :=
  let events := r.machine.log.toList.map Notice.event
  let stats := if r.stats then (statsLines r.machine.stats).map Notice.line else []
  let notices := r.notices ++ events ++ stats
  let output := r.machine.device.output.stored.toList
  match result with
  | .ok s => ⟨output, notices ++ [.event (.runDone s.steps)], none⟩
  | .error e =>
      ⟨output, notices,
        some
          ⟨"executing " ++ r.file ++ " (ip " ++ toString r.machine.ip ++ ", data pointer " ++
              toString r.machine.device.tape.pointer ++ ")",
            e.message :: e.causes⟩⟩

def continueFor (fuel : Nat) (r : PreparedRun) : Except PreparedRun Outcome :=
  match r.machine.run fuel with
  | (none, machine) => .error { r with machine }
  | (some result, machine) => .ok ({ r with machine }.conclude result)

def shown (r : PreparedRun) : Outcome :=
  ⟨r.machine.device.output.stored.toList, r.notices ++ r.machine.log.toList.map .event, none⟩

def cleared (r : PreparedRun) : PreparedRun :=
  let output := { r.machine.device.output with stored := #[] }
  let device := { r.machine.device with output }
  { r with machine := { r.machine with device, log := #[] }, notices := [] }

def awaitsInput (r : PreparedRun) : Bool :=
  r.machine.program.code[r.machine.ip]? = some Instruction.input.byte &&
    r.machine.limitReached?.isNone && r.machine.device.input.left = 0

def given (r : PreparedRun) : List UInt8 → PreparedRun
  | [] => r
  | bytes =>
      let device := { r.machine.device with input := .ofBytes bytes }
      { r with machine := { r.machine with device } }

section

variable {m : Type → Type} [Monad m] (ask : m (List UInt8)) (present : Outcome → m Unit)

@[specialize]
def request (r : PreparedRun) : m (List UInt8) :=
  if r.awaitsInput then ask else pure []

/-- Runs step by step, showing what each step leaves and asking for input only when a step waits
for it. -/
@[specialize]
def drive : (rounds : Nat) → PreparedRun → m (Option Outcome)
  | 0, _ => return none
  | rounds + 1, r => do
      present r.shown
      let bytes ← r.cleared.request ask
      match (r.cleared.given bytes).continueFor 1 with
      | .ok outcome => return some outcome
      | .error r => drive rounds r

end

end PreparedRun

def runFile (fuel : Nat) (files : Files) (stdin : Source) (file : String) (input : Option String)
    (engine : EngineOptions) (stats : Bool) : Option Outcome :=
  match PreparedRun.of files stdin file input engine stats with
  | .error outcome => some outcome
  | .ok prepared => (prepared.continueFor fuel).toOption

@[specialize]
def driveFile {m : Type → Type} [Monad m] (ask : m (List UInt8)) (present : Outcome → m Unit)
    (rounds : Nat) (files : Files) (file : String) (input : Option String)
    (engine : EngineOptions) (stats : Bool) : m (Option Outcome) :=
  match PreparedRun.of files .empty file input engine stats with
  | .error outcome => return some outcome
  | .ok prepared => prepared.drive (if input.isNone then ask else pure []) present rounds

end TapeLang.Command
