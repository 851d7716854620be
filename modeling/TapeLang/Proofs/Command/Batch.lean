import TapeLang.Proofs.Batch
import TapeLang.Proofs.Command.Run
import TapeLang.Proofs.Machine.Causality

namespace TapeLang

open Machine

theorem outcome_interpret_of_holds (fuel : Nat) {source input : Source} {config : Config}
    {p : Program} {bytes : List UInt8} (hl : (Loader.ofSource source).load.1 = .ok p)
    (hi : input.Holds bytes) (hc : input.calls = 0) :
    (interpret fuel source input .empty config).outcome =
      ((⟨p, bytes⟩ : Job).run fuel config).result := by
  cases hv : p.validate config.validation with
  | error e =>
      rw [Job.result_of_invalid fuel hv, Interpretation.outcome,
        (interpret_of_invalid fuel input .empty hl hv).1]
      rfl
  | ok =>
      have hstart : cutting.Couples (start p config (.ofBytes bytes) .empty)
          (start p config input .empty) :=
        ⟨rfl, rfl, hc, bytes, Source.holds_ofBytes bytes, hi⟩
      obtain ⟨hrun, -, hdevice, -⟩ := (Coupling.tight_faithful ..).run hstart fuel
      obtain ⟨hr, -, ho⟩ := interpret_of_valid fuel input .empty hl hv
      rw [Job.result_of_valid fuel hv, Interpretation.outcome, hr, ho, hrun, Option.map_map,
        hdevice]
      rfl

namespace Command

def Outcome.Shows (o : Outcome) : Except InterpretError (List UInt8) → Prop
  | .ok bytes => o.failure = none ∧ o.output = bytes
  | .error e => o.exitCode ≠ 0 ∧ o.firstCause? = some e.message

theorem Outcome.Reports.shows {o : Outcome} {output : List UInt8}
    {r : Except InterpretError RunStats} (h : o.Reports output r) :
    o.Shows (r.map fun _ => output) := by
  cases r with
  | ok s => exact ⟨Outcome.exitCode_eq_zero_iff.1 (h.exitCode_eq_zero_iff.2 ⟨s, rfl⟩), h.output_eq⟩
  | error e =>
      refine ⟨fun hexit => ?_, h.firstCause?_eq e rfl⟩
      obtain ⟨s, hs⟩ := h.exitCode_eq_zero_iff.1 hexit
      cases hs

section Entry

variable {o : Outcome} {r : Except InterpretError (List UInt8)} (h : o.Shows r) (file : String)
  (rest : List (String × Except InterpretError (List UInt8)))
include h

theorem blocks_cons_of_shows :
    blocks ((file, r) :: rest) =
      (if o.exitCode = 0 then textBytes ("== " ++ file ++ "\n") ++ o.output ++ [lineEnd] else []) ++
        blocks rest := by
  cases r with
  | ok bytes =>
      obtain ⟨hf, rfl⟩ := h
      rw [if_pos (Outcome.exitCode_eq_zero_iff.2 hf)]
      rfl
  | error e =>
      rw [if_neg h.1]
      rfl

theorem reports_cons_of_shows :
    reports ((file, r) :: rest) =
      (o.firstCause?.map (file ++ ": " ++ ·)).toList ++ reports rest := by
  cases r with
  | ok bytes =>
      rw [Outcome.firstCause?, h.1]
      rfl
  | error e =>
      rw [h.2]
      rfl

theorem firstCause?_eq_none_iff : o.firstCause? = none ↔ o.exitCode = 0 := by
  cases r with
  | ok bytes => simp [Outcome.exitCode, Outcome.firstCause?, h.1]
  | error e => simp [h.1, h.2]

end Entry

section Entries

variable {names : List String} {run : String → Outcome}
  {result : String → Except InterpretError (List UInt8)}
  (h : ∀ name ∈ names, (run name).Shows (result name))
include h

theorem blocks_of_shows :
    blocks (names.map fun name => (name, result name)) = names.flatMap fun name =>
      if (run name).exitCode = 0 then
        textBytes ("== " ++ name ++ "\n") ++ (run name).output ++ [lineEnd]
      else [] := by
  induction names with
  | nil => rfl
  | cons name rest ih =>
      obtain ⟨hname, hrest⟩ := List.forall_mem_cons.1 h
      rw [List.map_cons, blocks_cons_of_shows hname, ih hrest, List.flatMap_cons]

theorem reports_of_shows :
    reports (names.map fun name => (name, result name)) =
      names.filterMap fun name => (run name).firstCause?.map (name ++ ": " ++ ·) := by
  rw [List.filterMap_eq_flatMap_toList]
  induction names with
  | nil => rfl
  | cons name rest ih =>
      obtain ⟨hname, hrest⟩ := List.forall_mem_cons.1 h
      rw [List.map_cons, reports_cons_of_shows hname, ih hrest, List.flatMap_cons]

theorem reports_eq_nil_iff :
    reports (names.map fun name => (name, result name)) = [] ↔
      ∀ name ∈ names, (run name).exitCode = 0 := by
  rw [reports_of_shows h, List.filterMap_eq_nil_iff]
  refine forall₂_congr fun name hname => ?_
  rw [Option.map_eq_none_iff, firstCause?_eq_none_iff (h name hname)]

end Entries

structure Outcome.Collects (o : Outcome)
    (named : List (String × Except InterpretError (List UInt8))) : Prop where
  output_eq : o.output = blocks named
  lines_eq : o.lines = reports named
  failure_eq : o.failure =
    if reports named = [] then none
    else some ⟨toString (reports named).length ++ " of " ++ toString named.length ++
      " programs failed", []⟩

section Reading

variable {files : Files} {program : String → Program}

theorem readPrograms_of_loads {names : List String}
    (h : ∀ name ∈ names, Loads files name (program name)) :
    readPrograms files names =
      (.ok (names.map program), names.map fun name => loadedNotice (program name)) := by
  induction names with
  | nil => rfl
  | cons name rest ih =>
      obtain ⟨hname, hrest⟩ := List.forall_mem_cons.1 h
      simp only [readPrograms, hname.readProgram_eq, ih hrest]
      rfl

theorem readPrograms_of_unread {before : List String} {name : String} {e : Failure}
    (h : ∀ name ∈ before, Loads files name (program name)) (he : Unread files name e)
    (after : List String) :
    readPrograms files (before ++ name :: after) =
      (.error e, before.map fun name => loadedNotice (program name)) := by
  induction before with
  | nil => simp only [List.nil_append, readPrograms, he.readProgram_eq, List.map_nil]
  | cons first rest ih =>
      obtain ⟨hfirst, hrest⟩ := List.forall_mem_cons.1 h
      simp only [List.cons_append, readPrograms, hfirst.readProgram_eq, ih hrest]
      rfl

theorem exists_first_unread {names : List String}
    (h : ∃ name ∈ names, ¬ ∃ p, Loads files name p) :
    ∃ before name after e, names = before ++ name :: after ∧
      (∀ name ∈ before, ∃ p, Loads files name p) ∧ Unread files name e := by
  induction names with
  | nil =>
      obtain ⟨_, hmem, -⟩ := h
      cases hmem
  | cons name rest ih =>
      rcases loads_or_unread files name with hp | ⟨e, he⟩
      · obtain ⟨bad, hmem, hbad⟩ := h
        have hrest : bad ∈ rest := by
          rcases List.mem_cons.1 hmem with rfl | hrest
          · exact absurd hp hbad
          · exact hrest
        obtain ⟨before, first, after, e, rfl, hbefore, he⟩ := ih ⟨bad, hrest, hbad⟩
        exact ⟨name :: before, first, after, e, rfl, List.forall_mem_cons.2 ⟨hp, hbefore⟩, he⟩
      · exact ⟨[], name, rest, e, rfl, nofun, he⟩

end Reading

theorem mapM_eq_some_iff {α β : Type} {f : α → Option β} {xs : List α} {ys : List β} :
    xs.mapM f = some ys ↔ xs.map f = ys.map some := by
  induction xs generalizing ys with
  | nil => cases ys <;> simp
  | cons x xs ih =>
      rw [List.mapM_cons, List.map_cons]
      cases hx : f x with
      | none => cases ys <;> simp
      | some y =>
          cases ys with
          | nil => cases xs.mapM f <;> simp
          | cons y' ys =>
              rw [List.map_cons, List.cons_eq_cons, ← ih]
              cases xs.mapM f <;> simp

section

variable {fuel : Nat} {files : Files} {names : List String} {engine : EngineOptions}
  {program : String → Program} (ht : 0 < engine.tapeLength)
include ht

theorem batchFiles_of_unread {e : Failure} {notices : List Notice}
    (h : readPrograms files names = (.error e, notices)) :
    batchFiles fuel files names engine = some ⟨[], notices, some e⟩ := by
  simp only [batchFiles, config?_of_pos ht, h]

variable (hp : ∀ name ∈ names, Loads files name (program name))
include hp

theorem batchFiles_of_results {result : String → Except InterpretError (List UInt8)}
    (hr : ∀ name ∈ names,
      ((⟨program name, []⟩ : Job).run fuel engine.config).result = some (result name)) :
    ∃ o, batchFiles fuel files names engine = some o ∧
      o.Collects (names.map fun name => (name, result name)) := by
  have hends : (runBatch fuel engine.config ((names.map program).map (⟨·, []⟩))).mapM
      JobReport.result = some (names.map result) := by
    rw [mapM_eq_some_iff, runBatch, List.map_map, List.map_map, List.map_map, List.map_map]
    exact List.map_congr_left hr
  have hsilent :
      (names.map fun name => loadedNotice (program name)).filterMap Notice.line? = [] := by
    simp [List.filterMap_map, Function.comp_def, loadedNotice, Notice.line?]
  have hzip : names.zip (names.map result) = names.map fun name => (name, result name) :=
    List.map_prod_left_eq_zip.symm
  simp only [batchFiles, config?_of_pos ht, readPrograms_of_loads hp, hends]
  refine ⟨_, rfl, congrArg blocks hzip, ?_, ?_⟩
  · rw [Outcome.lines, List.filterMap_append, List.filterMap_append, hsilent,
      filterMap_line?_event, filterMap_line?_line, hzip]
    rfl
  · simp only [hzip, List.length_map]

theorem exists_result_of_batchFiles {o : Outcome}
    (h : batchFiles fuel files names engine = some o) :
    ∀ name ∈ names, ∃ r, ((⟨program name, []⟩ : Job).run fuel engine.config).result = some r := by
  simp only [batchFiles, config?_of_pos ht, readPrograms_of_loads hp] at h
  obtain ⟨results, hresults, -⟩ := Option.bind_eq_some_iff.1 h
  rw [mapM_eq_some_iff, runBatch, List.map_map, List.map_map, List.map_map] at hresults
  intro name hname
  obtain ⟨r, -, hr⟩ := List.mem_map.1 (hresults ▸ List.mem_map_of_mem hname)
  exact ⟨r, hr.symm⟩

variable {result : String → Except InterpretError (List UInt8)}
  (hr : ∀ name ∈ names, (⟨program name, []⟩ : Job).Ends engine.config (result name))
include hr

theorem exists_fuel_of_ends : ∃ fuel o, batchFiles fuel files names engine = some o := by
  have hends : BatchEnds engine.config (names.map fun name => ⟨program name, []⟩)
      (names.map result) := by
    rw [batchEnds_iff, List.forall₂_map_left_iff, List.forall₂_map_right_iff, List.forall₂_same]
    exact hr
  obtain ⟨fuel, hfuel⟩ := hends
  rw [results_runBatch_iff, List.forall₂_map_left_iff, List.forall₂_map_right_iff,
    List.forall₂_same] at hfuel
  obtain ⟨o, ho, -⟩ := batchFiles_of_results ht hp hfuel
  exact ⟨fuel, o, ho⟩

theorem collects_of_batchFiles {o : Outcome} (h : batchFiles fuel files names engine = some o) :
    o.Collects (names.map fun name => (name, result name)) := by
  -- The jobs may have ended with other fuel than this batch has, but what they end with is one.
  have hfuel : ∀ name ∈ names,
      ((⟨program name, []⟩ : Job).run fuel engine.config).result = some (result name) := by
    intro name hname
    obtain ⟨r, hrun⟩ := exists_result_of_batchFiles ht hp h name hname
    have hends : (⟨program name, []⟩ : Job).Ends engine.config r :=
      ⟨fuel, (Job.result_run ..).symm.trans hrun⟩
    rw [hrun, hends.deterministic (hr name hname)]
  obtain ⟨o', ho', hcollects⟩ := batchFiles_of_results ht hp hfuel
  obtain rfl := Option.some.inj (h.symm.trans ho')
  exact hcollects

end

theorem exists_ends_of_run {fuel : Nat} {files : Files} {drained : Source} {file : String}
    {engine : EngineOptions} {stats : Bool} {p : Program} {o : Outcome}
    (ht : 0 < engine.tapeLength) (hd : drained.Holds []) (hc : drained.calls = 0)
    (hp : Loads files file p) (h : runFile fuel files drained file none engine stats = some o) :
    ∃ r, (⟨p, []⟩ : Job).Ends engine.config r ∧ o.Shows r := by
  obtain ⟨source, hf, hl⟩ := hp
  have hi : (none : Option String).elim (.ok drained) files = .ok drained := rfl
  obtain ⟨hends, hreports⟩ := reports_runFile ht hf hi
  rw [h] at hends
  obtain ⟨r, hr⟩ := Option.isSome_iff_exists.1 hends.symm
  refine ⟨_, ⟨fuel, ?_⟩, (hreports o r h hr).shows⟩
  rw [← Job.result_run, ← outcome_interpret_of_holds fuel hl hd hc, Interpretation.outcome, hr]
  rfl

end Command

end TapeLang
