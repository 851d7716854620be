import TapeLang.Batch
import TapeLang.Proofs.Program.Loading

namespace TapeLang

namespace Loader

variable {source : Source} {l : Loader}

theorem exists_load_eq {r : Except LoadError Program} (h : l.load.1 = r) :
    ∃ l', l.load = (r, l') :=
  ⟨_, Prod.ext h rfl⟩

theorem load_ofBytes (bytes : List UInt8) :
    (Loader.ofSource (.ofBytes bytes)).load.1 = .ok (Program.ofList bytes) := by
  simp [load, cached?, ofSource, Source.ofBytes, Source.ofEvents, Source.drain,
    Source.drainAfter, Program.ofList]

theorem log_of_load_ok {p : Program} (h : (ofSource source).load = (.ok p, l)) :
    l.log = #[.programLoaded p.size p.instructionCount] := by
  cases load_of_eq h with
  | cached hp => cases hp
  | succeeds => rw [Program.size_ofList]; rfl

theorem log_of_load_error {e : LoadError} (h : (ofSource source).load = (.error e, l)) :
    l.log = #[] := by
  cases load_of_eq h with
  | fails => rfl

end Loader

section

variable (fuel : Nat) {source : Source} (input : Source) (output : Sink) {config : Config}
  {program : Program}

theorem interpret_of_unloaded {e : LoadError} (hl : (Loader.ofSource source).load.1 = .error e) :
    (interpret fuel source input output config).result = some (.error (.load e)) ∧
      (interpret fuel source input output config).log = #[] := by
  obtain ⟨loader, h⟩ := Loader.exists_load_eq hl
  simp only [interpret, h, Loader.log_of_load_error h, and_self]

theorem output_interpret_of_unloaded {e : LoadError}
    (hl : (Loader.ofSource source).load.1 = .error e) :
    (interpret fuel source input output config).output = output := by
  obtain ⟨loader, h⟩ := Loader.exists_load_eq hl
  simp only [interpret, h]

variable (hl : (Loader.ofSource source).load.1 = .ok program)
include hl

theorem interpret_of_invalid {e : ValidationError}
    (hv : program.validate config.validation = .error e) :
    (interpret fuel source input output config).result = some (.error (.validation e)) ∧
      (interpret fuel source input output config).input = input ∧
      (interpret fuel source input output config).output = output := by
  obtain ⟨loader, h⟩ := Loader.exists_load_eq hl
  simp only [interpret, h, hv, and_self]

theorem log_interpret_of_invalid {e : ValidationError}
    (hv : program.validate config.validation = .error e) :
    (interpret fuel source input output config).log =
      #[.programLoaded program.size program.instructionCount,
        .programRejected config.validation e] := by
  obtain ⟨loader, h⟩ := Loader.exists_load_eq hl
  simp only [interpret, h, hv, Loader.log_of_load_ok h, Program.validationEvent]
  rfl

theorem interpret_of_valid (hv : program.validate config.validation = .ok ()) :
    (interpret fuel source input output config).result =
        ((Machine.start program config input output).run fuel).1.map (·.mapError .execution) ∧
      (interpret fuel source input output config).input =
        ((Machine.start program config input output).run fuel).2.device.input ∧
      (interpret fuel source input output config).output =
        ((Machine.start program config input output).run fuel).2.device.output := by
  obtain ⟨loader, h⟩ := Loader.exists_load_eq hl
  simp only [interpret, h, hv, and_self]

theorem log_interpret_of_valid (hv : program.validate config.validation = .ok ()) :
    (interpret fuel source input output config).log =
      #[.programLoaded program.size program.instructionCount,
        .programValidated config.validation] ++
        ((Machine.start program config input output).run fuel).2.log := by
  obtain ⟨loader, h⟩ := Loader.exists_load_eq hl
  simp only [interpret, h, hv, Loader.log_of_load_ok h, Program.validationEvent]
  rfl

end

theorem eq_of_map_execution {result : Option (Except ExecutionError RunStats)}
    {e : ExecutionError}
    (h : result.map (·.mapError InterpretError.execution) = some (.error (.execution e))) :
    result = some (.error e) := by
  rcases result with _ | e' | stats
  · cases h
  · cases h
    rfl
  · cases h

theorem exists_run_of_interpret {fuel : Nat} {source input : Source} {output : Sink}
    {config : Config} {e : ExecutionError}
    (h : (interpret fuel source input output config).result = some (.error (.execution e))) :
    ∃ program m', program.validate config.validation = .ok () ∧
      (Machine.start program config input output).run fuel = (some (.error e), m') := by
  cases hl : (Loader.ofSource source).load.1 with
  | error e' =>
      rw [(interpret_of_unloaded fuel input output hl).1] at h
      cases h
  | ok program =>
      cases hv : program.validate config.validation with
      | error e =>
          rw [(interpret_of_invalid fuel input output hl hv).1] at h
          cases h
      | ok =>
          rw [(interpret_of_valid fuel input output hl hv).1] at h
          exact ⟨program, _, hv, Prod.ext (eq_of_map_execution h) rfl⟩

namespace Job

variable {config : Config} {job : Job}

theorem result_of_invalid (fuel : Nat) {e : ValidationError}
    (hv : job.program.validate config.validation = .error e) :
    (job.run fuel config).result = some (.error (.validation e)) := by
  simp only [run, hv]

theorem result_of_valid (fuel : Nat) (hv : job.program.validate config.validation = .ok ()) :
    (job.run fuel config).result =
      ((Machine.start job.program config (.ofBytes job.input) .empty).run fuel).1.map fun r =>
        (r.mapError .execution).map fun _ =>
          ((Machine.start job.program config (.ofBytes job.input) .empty).run
            fuel).2.device.output.stored.toList := by
  simp only [run, hv]
  cases (Machine.start job.program config (.ofBytes job.input) .empty).run fuel with
  | mk r m => rcases r with _ | e | stats <;> rfl

end Job

theorem exists_run_of_job {fuel : Nat} {config : Config} {job : Job} {e : ExecutionError}
    (h : (job.run fuel config).result = some (.error (.execution e))) :
    ∃ m', job.program.validate config.validation = .ok () ∧
      (Machine.start job.program config (.ofBytes job.input) .empty).run fuel =
        (some (.error e), m') := by
  cases hv : job.program.validate config.validation with
  | error e =>
      rw [Job.result_of_invalid fuel hv] at h
      cases h
  | ok =>
      rw [Job.result_of_valid fuel hv] at h
      obtain ⟨r, hr, he⟩ := Option.map_eq_some_iff.1 h
      cases r with
      | ok => cases he
      | error =>
          cases he
          exact ⟨_, rfl, Prod.ext hr rfl⟩

end TapeLang
