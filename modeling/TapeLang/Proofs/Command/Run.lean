import TapeLang.Command.Invoke
import TapeLang.Proofs.Interpretation
import TapeLang.Proofs.Machine.Run

namespace TapeLang.Command

def Notice.line? : Notice → Option String
  | .event _ => none
  | .line text => some text

theorem filterMap_line?_event (events : List Event) :
    (events.map Notice.event).filterMap Notice.line? = [] := by
  simp [List.filterMap_map, Function.comp_def, Notice.line?]

theorem filterMap_line?_line (texts : List String) :
    (texts.map Notice.line).filterMap Notice.line? = texts := by
  simp [List.filterMap_map, Function.comp_def, Notice.line?]

namespace Outcome

variable {o : Outcome}

def lines (o : Outcome) : List String :=
  o.notices.filterMap Notice.line?

def firstCause? (o : Outcome) : Option String :=
  o.failure.bind (·.causes.head?)

theorem exitCode_eq_zero_iff : o.exitCode = 0 ↔ o.failure = none := by
  cases h : o.failure <;> simp [exitCode, h]

structure Reports (o : Outcome) (output : List UInt8) (r : Except InterpretError RunStats) :
    Prop where
  exitCode_eq_zero_iff : o.exitCode = 0 ↔ ∃ s, r = .ok s
  output_eq : o.output = output
  firstCause?_eq : ∀ e, r = .error e → o.firstCause? = some e.message

variable {output : List UInt8} {notices : List Notice}

theorem reports_ok (s : RunStats) : Reports ⟨output, notices, none⟩ output (.ok s) :=
  ⟨⟨fun _ => ⟨s, rfl⟩, fun _ => rfl⟩, rfl, nofun⟩

theorem reports_error (e : InterpretError) {message : String} {causes : List String} :
    Reports ⟨output, notices, some ⟨message, e.message :: causes⟩⟩ output (.error e) := by
  refine ⟨by simp [exitCode], rfl, ?_⟩
  rintro _ ⟨⟩
  rfl

theorem lines_sublist_errorTexts (o : Outcome) (t : Threshold) :
    o.lines.Sublist (o.errorTexts t) := by
  refine List.Sublist.trans ?_ (List.sublist_append_left _ _)
  rw [lines]
  induction o.notices with
  | nil => exact .slnil
  | cons n notices ih =>
      rw [List.flatMap_cons]
      cases n with
      | event e => exact ih.trans (List.sublist_append_right _ _)
      | line text => exact ih.cons_cons text

end Outcome

theorem config?_of_pos {engine : EngineOptions} (h : 0 < engine.tapeLength) :
    engine.config? = .ok engine.config :=
  if_neg (Nat.ne_of_gt h)

def Loads (files : Files) (file : String) (p : Program) : Prop :=
  ∃ source, files file = .ok source ∧ (Loader.ofSource source).load.1 = .ok p

inductive Unread (files : Files) (file : String) : Failure → Prop
  | unopened {fault : Fault} (hf : files file = .error fault) :
      Unread files file ⟨"opening " ++ file, [fault.message]⟩
  | unloaded {source : Source} {e : LoadError} (hf : files file = .ok source)
      (hl : (Loader.ofSource source).load.1 = .error e) :
      Unread files file ⟨"loading " ++ file, e.message :: e.causes⟩

section ProgramFile

variable {files : Files} {file : String} {p : Program} {e : Failure}

theorem loads_or_unread (files : Files) (file : String) :
    (∃ p, Loads files file p) ∨ ∃ e, Unread files file e := by
  cases hf : files file with
  | error fault => exact .inr ⟨_, .unopened hf⟩
  | ok source =>
      cases hl : (Loader.ofSource source).load.1 with
      | error e => exact .inr ⟨_, .unloaded hf hl⟩
      | ok p => exact .inl ⟨p, source, hf, hl⟩

def loadedNotice (p : Program) : Notice :=
  .event (.programLoaded p.size p.instructionCount)

theorem Loads.readProgram_eq (h : Loads files file p) :
    readProgram files file = (.ok p, [loadedNotice p]) := by
  obtain ⟨source, hf, hl⟩ := h
  obtain ⟨loader, h⟩ := Loader.exists_load_eq hl
  simp only [readProgram, openFile, hf, h, Loader.log_of_load_ok h]
  rfl

theorem Unread.readProgram_eq (h : Unread files file e) :
    readProgram files file = (.error e, []) := by
  cases h with
  | unopened hf => simp only [readProgram, openFile, hf]
  | unloaded hf hl =>
      obtain ⟨loader, h⟩ := Loader.exists_load_eq hl
      simp only [readProgram, openFile, hf, h, Loader.log_of_load_error h]
      rfl

theorem Loads.deterministic {q : Program} (h : Loads files file p) (h' : Loads files file q) :
    p = q := by
  have hread := h.readProgram_eq.symm.trans h'.readProgram_eq
  exact Except.ok.inj (congrArg Prod.fst hread)

theorem Loads.not_unread (h : Loads files file p) : ¬ Unread files file e := by
  intro h'
  have hread := h.readProgram_eq.symm.trans h'.readProgram_eq
  cases congrArg Prod.fst hread

end ProgramFile

namespace PreparedRun

variable (r : PreparedRun) (result : Except ExecutionError RunStats)

theorem reports_conclude :
    (r.conclude result).Reports r.machine.device.output.stored.toList
      (result.mapError .execution) := by
  cases result with
  | error e => exact Outcome.reports_error (.execution e)
  | ok s => exact Outcome.reports_ok s

theorem lines_conclude :
    (r.conclude result).lines = r.notices.filterMap Notice.line? ++
      if r.stats then statsLines r.machine.stats else [] := by
  have stats_lines : (if r.stats then (statsLines r.machine.stats).map Notice.line
      else []).filterMap Notice.line? = if r.stats then statsLines r.machine.stats else [] := by
    split
    · exact filterMap_line?_line _
    · rfl
  rw [Outcome.lines]
  cases result with
  | error e =>
      simp only [conclude, List.filterMap_append, filterMap_line?_event, stats_lines,
        List.append_nil]
  | ok s =>
      simp only [conclude, List.filterMap_append, filterMap_line?_event, stats_lines,
        List.append_nil]
      exact List.append_nil _

end PreparedRun

def validatedNotices (p : Program) (mode : ValidationMode) : List Notice :=
  [loadedNotice p, .event (p.validationEvent mode)]

section

variable (fuel : Nat) {files : Files} (stdin : Source) {file : String} (input : Option String)
  {engine : EngineOptions} (stats : Bool) (ht : 0 < engine.tapeLength)
include ht

theorem runFile_of_unread {e : Failure} (h : Unread files file e) :
    runFile fuel files stdin file input engine stats = some ⟨[], [], some e⟩ := by
  simp only [runFile, PreparedRun.of, config?_of_pos ht, readValid, h.readProgram_eq]

variable {p : Program} (hp : Loads files file p)
include hp

theorem runFile_of_invalid {e : ValidationError}
    (hv : p.validate engine.config.validation = .error e) :
    runFile fuel files stdin file input engine stats = some
      ⟨[], validatedNotices p engine.config.validation,
        some ⟨"validating " ++ file, [e.message]⟩⟩ := by
  simp only [runFile, PreparedRun.of, config?_of_pos ht, readValid, hp.readProgram_eq, hv]
  rfl

variable (hv : p.validate engine.config.validation = .ok ())
include hv

theorem runFile_of_missing_input {name : String} {fault : Fault} (hn : files name = .error fault) :
    runFile fuel files stdin file (some name) engine stats = some
      ⟨[], validatedNotices p engine.config.validation,
        some ⟨"opening " ++ name, [fault.message]⟩⟩ := by
  simp only [runFile, PreparedRun.of, config?_of_pos ht, readValid, hp.readProgram_eq, hv,
    Option.elim_some, openFile, hn]
  rfl

theorem runFile_of_ready {i : Source} (hi : input.elim (.ok stdin) files = .ok i) :
    runFile fuel files stdin file input engine stats =
      ((Machine.start p engine.config i .empty).run fuel).1.map
        (PreparedRun.conclude ⟨file, stats, ((Machine.start p engine.config i .empty).run fuel).2,
          validatedNotices p engine.config.validation⟩) := by
  have hopen : input.elim (.ok stdin) (openFile files) = .ok i := by
    cases input with
    | none =>
        cases hi
        rfl
    | some name =>
        have hn : files name = .ok i := hi
        simp only [Option.elim_some, openFile, hn]
  simp only [runFile, PreparedRun.of, config?_of_pos ht, readValid, hp.readProgram_eq, hv, hopen,
    PreparedRun.continueFor]
  rcases (Machine.start p engine.config i .empty).run fuel with ⟨_ | result, m⟩ <;> rfl

end

theorem reports_runFile {fuel : Nat} {files : Files} {stdin : Source} {file : String}
    {input : Option String} {engine : EngineOptions} {stats : Bool} (ht : 0 < engine.tapeLength)
    {source i : Source} (hf : files file = .ok source)
    (hi : input.elim (.ok stdin) files = .ok i) :
    let whole := interpret fuel source i .empty engine.config
    let outcome? := runFile fuel files stdin file input engine stats
    outcome?.isSome = whole.result.isSome ∧
      ∀ o r, outcome? = some o → whole.result = some r →
        o.Reports whole.output.stored.toList r := by
  intro whole outcome?
  cases hl : (Loader.ofSource source).load.1 with
  | error e =>
      have hrun : outcome? = _ := runFile_of_unread fuel stdin input stats ht (.unloaded hf hl)
      have hresult : whole.result = _ := (interpret_of_unloaded fuel i .empty hl).1
      have houtput : whole.output = .empty := output_interpret_of_unloaded fuel i .empty hl
      rw [hrun, hresult, houtput]
      refine ⟨rfl, ?_⟩
      rintro _ _ ⟨⟩ ⟨⟩
      exact Outcome.reports_error (.load e)
  | ok p =>
      have hp : Loads files file p := ⟨source, hf, hl⟩
      cases hv : p.validate engine.config.validation with
      | error e =>
          have hrun : outcome? = _ := runFile_of_invalid fuel stdin input stats ht hp hv
          obtain ⟨hresult, -, houtput⟩ := interpret_of_invalid fuel i .empty hl hv
          have hresult : whole.result = _ := hresult
          have houtput : whole.output = .empty := houtput
          rw [hrun, hresult, houtput]
          refine ⟨rfl, ?_⟩
          rintro _ _ ⟨⟩ ⟨⟩
          exact Outcome.reports_error (.validation e)
      | ok =>
          have hrun : outcome? = _ := runFile_of_ready fuel stdin input stats ht hp hv hi
          obtain ⟨hresult, -, houtput⟩ := interpret_of_valid fuel i .empty hl hv
          have hresult : whole.result = _ := hresult
          have houtput : whole.output = _ := houtput
          rw [hrun, hresult, houtput]
          refine ⟨by rw [Option.isSome_map, Option.isSome_map], ?_⟩
          intro o r ho hr
          obtain ⟨result, hm, rfl⟩ := Option.map_eq_some_iff.1 ho
          rw [hm] at hr
          cases hr
          exact PreparedRun.reports_conclude _ result

theorem silent_of_missing_input (fuel : Nat) {files : Files} (stdin : Source) {file : String}
    {engine : EngineOptions} (stats : Bool) (ht : 0 < engine.tapeLength) {name : String}
    {fault : Fault} (hn : files name = .error fault) :
    ∃ o, runFile fuel files stdin file (some name) engine stats = some o ∧
      o.exitCode = 1 ∧ o.output = [] ∧ o.lines = [] ∧
      ∀ p, Loads files file p → p.validate engine.config.validation = .ok () →
        o.failure = some ⟨"opening " ++ name, [fault.message]⟩ := by
  rcases loads_or_unread files file with ⟨p, hp⟩ | ⟨e, he⟩
  · cases hv : p.validate engine.config.validation with
    | error e =>
        refine ⟨_, runFile_of_invalid fuel stdin _ stats ht hp hv, rfl, rfl, rfl, ?_⟩
        intro q hq hq'
        rw [← hp.deterministic hq, hv] at hq'
        cases hq'
    | ok =>
        refine ⟨_, runFile_of_missing_input fuel stdin stats ht hp hv hn, rfl, rfl, rfl, ?_⟩
        intro _ _ _
        rfl
  · refine ⟨_, runFile_of_unread fuel stdin _ stats ht he, rfl, rfl, rfl, ?_⟩
    intro p hp
    exact absurd he hp.not_unread

theorem run_agrees_with_interpretation (files : Files) (stdin : Source) (file : String)
    (input : Option String) (engine : EngineOptions) (stats : Bool) (ht : 0 < engine.tapeLength) :
    let config : Config :=
      { tapeLength := engine.tapeLength
        stepLimit := engine.stepLimit
        validation := if engine.lenient then .lenient else .strict }
    let run fuel := (Action.run file input engine stats).perform fuel files stdin
    (∀ source i fuel, files file = .ok source → input.elim (.ok stdin) files = .ok i →
      let whole := interpret fuel source i ⟨[], #[], 0⟩ config
      (run fuel).isSome = whole.result.isSome ∧
      (∀ o r, run fuel = some o → whole.result = some r →
        o.Reports whole.output.stored.toList r) ∧
      ∀ o, run fuel = some o →
        (∀ t, o.lines.Sublist (o.errorTexts t)) ∧
        match (Loader.ofSource source).load.1 with
        | .error e =>
            whole.result = some (.error (.load e)) ∧ o.lines = [] ∧
            o.failure.map Failure.message = some ("loading " ++ file)
        | .ok p =>
            match p.validate config.validation with
            | .error e =>
                whole.result = some (.error (.validation e)) ∧ o.lines = [] ∧
                o.failure.map Failure.message = some ("validating " ++ file)
            | .ok () =>
                let m := ((Machine.start p config i ⟨[], #[], 0⟩).run fuel).2
                o.lines = (if stats then
                  ["Run statistics:",
                    "  Steps:          " ++ toString m.stats.steps,
                    "  Jumps:          " ++ toString m.stats.jumps,
                    "  Bytes read:     " ++ toString m.stats.bytesRead,
                    "  Bytes written:  " ++ toString m.stats.bytesWritten]
                else []) ∧
                ∀ e, whole.result = some (.error e) → ∃ e', e = .execution e' ∧
                  o.failure.map Failure.message = some ("executing " ++ file ++ " (ip " ++
                    toString m.ip ++ ", data pointer " ++ toString m.device.tape.pointer ++ ")") ∧
                  ∀ position, e'.position? = some position → position = m.ip) ∧
    (∀ name fault fuel, input = some name → files name = .error fault → ∃ o, run fuel = some o ∧
      o.exitCode = 1 ∧ o.output = [] ∧ o.lines = [] ∧
      ∀ p, Loads files file p → p.validate config.validation = .ok () →
        o.failure = some ⟨"opening " ++ name, [fault.message]⟩) ∧
    ∀ fault fuel, files file = .error fault → ∃ o, run fuel = some o ∧ o.exitCode = 1 ∧
      o.output = [] ∧ o.lines = [] ∧ o.failure = some ⟨"opening " ++ file, [fault.message]⟩ := by
  intro config run
  have hconfig : config = engine.config := by
    rw [EngineOptions.config, ValidationMode.ofLenient]
  clear_value config
  subst hconfig
  refine ⟨?_, ?_, ?_⟩
  · intro source i fuel hf hi whole
    obtain ⟨hends, hreports⟩ := reports_runFile ht hf hi
    refine ⟨hends, hreports, ?_⟩
    intro o ho
    refine ⟨o.lines_sublist_errorTexts, ?_⟩
    cases hl : (Loader.ofSource source).load.1 with
    | error e =>
        have hrun := runFile_of_unread fuel stdin input stats ht (.unloaded hf hl)
        obtain rfl := Option.some.inj (hrun.symm.trans ho)
        exact ⟨(interpret_of_unloaded fuel i .empty hl).1, rfl, rfl⟩
    | ok p =>
        have hp : Loads files file p := ⟨source, hf, hl⟩
        dsimp only
        cases hv : p.validate engine.config.validation with
        | error e =>
            have hrun := runFile_of_invalid fuel stdin input stats ht hp hv
            obtain rfl := Option.some.inj (hrun.symm.trans ho)
            exact ⟨(interpret_of_invalid fuel i .empty hl hv).1, rfl, rfl⟩
        | ok =>
            have hrun := runFile_of_ready fuel stdin input stats ht hp hv hi
            obtain ⟨result, hm, rfl⟩ := Option.map_eq_some_iff.1 (hrun.symm.trans ho)
            refine ⟨PreparedRun.lines_conclude _ result, ?_⟩
            intro e he
            have hresult : whole.result = _ := (interpret_of_valid fuel i .empty hl hv).1
            rw [hresult, hm] at he
            cases result with
            | ok => cases he
            | error e' =>
                cases he
                refine ⟨e', rfl, rfl, ?_⟩
                intro position
                exact (Machine.Run.of_run (Prod.ext hm rfl)).ip_of_position
  · intro name fault fuel hinput hn
    subst hinput
    exact silent_of_missing_input fuel stdin stats ht hn
  · intro fault fuel hf
    exact ⟨_, runFile_of_unread fuel stdin input stats ht (.unopened hf), rfl, rfl, rfl, rfl⟩

theorem run_agrees_with_interpretation_starved :
    let files : Files := fun _ => .ok (.ofBytes [46, 44])
    let engine : EngineOptions := ⟨1, none, false⟩
    0 < engine.tapeLength ∧
      ∃ o, (Action.run "p" none engine true).perform 2 files .empty = some o ∧
        o.Reports [0] (.error (.execution (.transfer 1 ⟨.read, .count 0⟩))) ∧
        o.lines = ["Run statistics:", "  Steps:          1", "  Jumps:          0",
          "  Bytes read:     0", "  Bytes written:  1"] ∧
        o.failure.map Failure.message = some "executing p (ip 1, data pointer 0)" := by
  intro files engine
  have ht : 0 < engine.tapeLength := Nat.one_pos
  refine ⟨ht, ?_⟩
  obtain ⟨hends, hreports, hstages⟩ :=
    (run_agrees_with_interpretation files .empty "p" none engine true ht).1
      (.ofBytes [46, 44]) .empty 2 rfl rfl
  obtain ⟨o, ho⟩ := Option.isSome_iff_exists.1 (hends.trans rfl)
  obtain ⟨-, hlines, hfailure⟩ := hstages o ho
  obtain ⟨e, -, hmessage, -⟩ := hfailure _ rfl
  exact ⟨o, ho, hreports o _ ho rfl, hlines.trans (by decide), hmessage.trans (by decide)⟩

end TapeLang.Command
