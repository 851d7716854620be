import TapeLang.Interpretation

namespace TapeLang

structure Job where
  program : Program
  input : List UInt8
  deriving DecidableEq, Repr

/-- What a failed job wrote is dropped. There is no result if the fuel ran out. -/
structure JobReport where
  result : Option (Except InterpretError (List UInt8))
  log : Log

/-- Every job has a machine of its own, so its report depends on nothing but the job. -/
def Job.run (fuel : Nat) (config : Config) (job : Job) : JobReport :=
  let event := job.program.validationEvent config.validation
  match job.program.validate config.validation with
  | .error e => ⟨some (.error (.validation e)), #[event]⟩
  | .ok () =>
      match (Machine.start job.program config (.ofBytes job.input) .empty).run fuel with
      | (some (.ok _), m) => ⟨some (.ok m.device.output.stored.toList), #[event] ++ m.log⟩
      | (some (.error e), m) => ⟨some (.error (.execution e)), #[event] ++ m.log⟩
      | (none, m) => ⟨none, #[event] ++ m.log⟩

def runBatch (fuel : Nat) (config : Config) (jobs : List Job) : List JobReport :=
  jobs.map (Job.run fuel config)

theorem runBatch_append (fuel : Nat) (config : Config) (a b : List Job) :
    runBatch fuel config (a ++ b) = runBatch fuel config a ++ runBatch fuel config b := by
  simp [runBatch]

end TapeLang
