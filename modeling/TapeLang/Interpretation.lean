import TapeLang.Machine.Basic
import TapeLang.Program.Loader

namespace TapeLang

inductive InterpretError where
  | load (error : LoadError)
  | validation (error : ValidationError)
  | execution (error : ExecutionError)
  deriving DecidableEq, Repr

namespace InterpretError

def message : InterpretError → String
  | .load error => error.message
  | .validation error => error.message
  | .execution error => error.message

def causes : InterpretError → List String
  | .load error => error.causes
  | .validation _ => []
  | .execution error => error.causes

end InterpretError

def Program.validationEvent (p : Program) (mode : ValidationMode) : Event :=
  match p.validate mode with
  | .ok () => .programValidated mode
  | .error e => .programRejected mode e

/-- There is no result if the fuel ran out. -/
structure Interpretation where
  result : Option (Except InterpretError RunStats)
  source : Source
  input : Source
  output : Sink
  log : Log

def interpret (fuel : Nat) (source input : Source) (output : Sink) (config : Config) :
    Interpretation :=
  match (Loader.ofSource source).load with
  | (.error e, loader) => ⟨some (.error (.load e)), loader.source, input, output, loader.log⟩
  | (.ok program, loader) =>
      let log := loader.log.push (program.validationEvent config.validation)
      match program.validate config.validation with
      | .error e => ⟨some (.error (.validation e)), loader.source, input, output, log⟩
      | .ok () =>
          match (Machine.start program config input output).run fuel with
          | (result, m) =>
              ⟨result.map (·.mapError .execution), loader.source, m.device.input,
                m.device.output, log ++ m.log⟩

end TapeLang
