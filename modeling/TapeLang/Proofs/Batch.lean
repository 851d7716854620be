import Mathlib.Data.List.Forall2
import TapeLang.Proofs.Interpretation

namespace TapeLang

def Interpretation.outcome (i : Interpretation) : Option (Except InterpretError (List UInt8)) :=
  i.result.map (·.map fun _ => i.output.stored.toList)

namespace Job

def interpretation (fuel : Nat) (config : Config) (job : Job) : Interpretation :=
  interpret fuel (.ofBytes job.program.toList) (.ofBytes job.input) .empty config

def Ends (config : Config) (job : Job) (r : Except InterpretError (List UInt8)) : Prop :=
  ∃ fuel, (job.interpretation fuel config).outcome = some r

variable {fuel : Nat} {config : Config} {job : Job} {r : Except InterpretError (List UInt8)}

theorem result_run (fuel : Nat) (config : Config) (job : Job) :
    (job.run fuel config).result = (job.interpretation fuel config).outcome := by
  have hl := Loader.load_ofBytes job.program.toList
  rw [Program.ofList_toList] at hl
  cases hv : job.program.validate config.validation with
  | error e =>
      obtain ⟨hr, -, -⟩ := interpret_of_invalid fuel (.ofBytes job.input) .empty hl hv
      rw [result_of_invalid fuel hv, interpretation, Interpretation.outcome, hr]
      rfl
  | ok =>
      obtain ⟨hr, -, ho⟩ := interpret_of_valid fuel (.ofBytes job.input) .empty hl hv
      rw [result_of_valid fuel hv, interpretation, Interpretation.outcome, hr, ho, Option.map_map]
      rfl

theorem result_run_add (h : (job.run fuel config).result = some r) (more : Nat) :
    (job.run (fuel + more) config).result = some r := by
  cases hv : job.program.validate config.validation with
  | error e =>
      rw [result_of_invalid _ hv] at h ⊢
      exact h
  | ok =>
      rw [result_of_valid _ hv] at h ⊢
      obtain ⟨r', hr, he⟩ := Option.map_eq_some_iff.1 h
      rw [Machine.run_add_of_some (Prod.ext hr rfl) more]
      exact congrArg some he

theorem Ends.deterministic {r' : Except InterpretError (List UInt8)} (h : job.Ends config r)
    (h' : job.Ends config r') : r = r' := by
  obtain ⟨fuel, h⟩ := h
  obtain ⟨fuel', h'⟩ := h'
  rw [← job.result_run] at h h'
  have hmore := result_run_add h fuel'
  rw [Nat.add_comm, result_run_add h' fuel] at hmore
  exact (Option.some.inj hmore).symm

end Job

def BatchEnds (config : Config) (jobs : List Job)
    (results : List (Except InterpretError (List UInt8))) : Prop :=
  ∃ fuel, (runBatch fuel config jobs).map JobReport.result = results.map some

section

variable {fuel : Nat} {config : Config} {jobs : List Job}
  {results : List (Except InterpretError (List UInt8))}

theorem results_runBatch_iff :
    (runBatch fuel config jobs).map JobReport.result = results.map some ↔
      List.Forall₂ (fun job r => (job.run fuel config).result = some r) jobs results := by
  rw [runBatch, List.map_map, ← List.forall₂_eq_eq_eq, List.forall₂_map_left_iff,
    List.forall₂_map_right_iff]
  rfl

theorem batchEnds_iff :
    BatchEnds config jobs results ↔ List.Forall₂ (Job.Ends config) jobs results := by
  constructor
  · rintro ⟨fuel, h⟩
    refine (results_runBatch_iff.1 h).imp ?_
    intro job r hr
    exact ⟨fuel, (job.result_run fuel config).symm.trans hr⟩
  · intro h
    induction h with
    | nil => exact ⟨0, rfl⟩
    | @cons job r jobs results hj _ ih =>
        -- Fuel that serves the first job and the others serves them together.
        obtain ⟨first, hfirst⟩ := hj
        obtain ⟨rest, hrest⟩ := ih
        refine ⟨first + rest, results_runBatch_iff.2 (.cons ?_ ?_)⟩
        · exact Job.result_run_add ((job.result_run first config).trans hfirst) rest
        · refine (results_runBatch_iff.1 hrest).imp ?_
          intro job r hr
          rw [Nat.add_comm]
          exact Job.result_run_add hr first

theorem runBatch_pick (fuel : Nat) (config : Config) (jobs : List Job) (picks : List Nat) :
    runBatch fuel config (picks.filterMap (jobs[·]?)) =
      picks.filterMap ((runBatch fuel config jobs)[·]?) := by
  simp only [runBatch, List.map_filterMap, List.getElem?_map]

end

theorem batch_agrees_with_interpretation (config : Config) (jobs : List Job) :
    (∀ fuel, (runBatch fuel config jobs).length = jobs.length) ∧
    (∀ fuel (i : Nat) job, jobs[i]? = some job →
      let alone := interpret fuel (.ofBytes job.program.toList) (.ofBytes job.input) .empty config
      ∃ report, (runBatch fuel config jobs)[i]? = some report ∧
        (∀ bytes, report.result = some (.ok bytes) ↔
          ∃ stats, alone.result = some (.ok stats) ∧ bytes = alone.output.stored.toList) ∧
        ∀ e, report.result = some (.error e) ↔ alone.result = some (.error e)) ∧
    (∀ results, BatchEnds config jobs results ↔ List.Forall₂ (Job.Ends config) jobs results) ∧
    (∀ fuel others, runBatch fuel config (jobs ++ others) =
      runBatch fuel config jobs ++ runBatch fuel config others) ∧
    ∀ fuel (picks : List Nat), runBatch fuel config (picks.filterMap (jobs[·]?)) =
      picks.filterMap ((runBatch fuel config jobs)[·]?) := by
  refine ⟨?_, ?_, fun results => batchEnds_iff, ?_, ?_⟩
  · intro fuel
    exact List.length_map _
  · intro fuel i job hi alone
    refine ⟨job.run fuel config, ?_, ?_, ?_⟩
    · rw [runBatch, List.getElem?_map, hi, Option.map_some]
    · intro bytes
      rw [job.result_run]
      change alone.outcome = _ ↔ _
      rw [Interpretation.outcome]
      rcases alone.result with _ | e | stats <;> simp [Except.map, eq_comm]
    · intro e
      rw [job.result_run]
      change alone.outcome = _ ↔ _
      rw [Interpretation.outcome]
      rcases alone.result with _ | e | stats <;> simp [Except.map]
  · intro fuel others
    exact runBatch_append fuel config jobs others
  · intro fuel picks
    exact runBatch_pick fuel config jobs picks

end TapeLang
