import TapeLang.Proofs.Command.Run
import TapeLang.Proofs.Program.Census

namespace TapeLang.Command

/-- The text that stripping a program prints. -/
def stripped (p : Program) : Program :=
  .ofList (p.strip.toList ++ [lineEnd])

theorem size_stripped (p : Program) : (stripped p).size = p.strip.size + 1 := by
  rw [stripped, Program.size_ofList, List.length_append, Program.length_toList]
  rfl

theorem strip_stripped (p : Program) : (stripped p).strip = p.strip := by
  apply Program.ext_toList
  rw [Program.toList_strip, stripped, Program.toList_ofList, List.filter_append,
    ← Program.toList_strip, Program.strip_strip]
  exact List.append_nil _

theorem validate_stripped (p : Program) (mode : ValidationMode) :
    (stripped p).validate mode = (p.validate mode).mapError (·.relocate p.rank) := by
  have hend : IsAtom lineEnd := by decide
  apply Program.validate_of_openLoops
  rw [stripped, Program.toList_ofList, Program.openLoops_concat _ _ hend, Program.toList_strip]
  exact Program.openLoops_filter fun k => by rw [Nat.zero_add, Nat.zero_add, Program.rank]

section

variable {files : Files} {file : String} {p : Program} (h : Loads files file p)
include h

theorem stripFile_of_loads :
    stripFile files file false = ⟨(stripped p).toList, [loadedNotice p], none⟩ := by
  simp only [stripFile, h.readProgram_eq, stripped, Program.toList_ofList, Bool.false_eq_true,
    if_false]

theorem failure_checkFile (lenient stats : Bool) :
    (checkFile files file lenient stats).failure =
      match p.validate (.ofLenient lenient) with
      | .ok () => none
      | .error e => some ⟨"validating " ++ file, [e.message]⟩ := by
  simp only [checkFile, readValid, h.readProgram_eq]
  cases p.validate (.ofLenient lenient) <;> rfl

theorem failure_checkFile_of_error {lenient : Bool} {e : ValidationError}
    (he : p.validate (.ofLenient lenient) = .error e) (stats : Bool) :
    (checkFile files file lenient stats).failure =
      some ⟨"validating " ++ file, [e.message]⟩ := by
  rw [failure_checkFile h, he]

theorem exitCode_checkFile (lenient stats : Bool) :
    (checkFile files file lenient stats).exitCode =
      if (p.validate (.ofLenient lenient)).isOk then 0 else 1 := by
  rw [Outcome.exitCode, failure_checkFile h]
  cases p.validate (.ofLenient lenient) <;> rfl

end

theorem loads_of_bytes {files : Files} {file : String} {bytes : List UInt8}
    (h : files file = .ok (.ofBytes bytes)) : Loads files file (.ofList bytes) :=
  ⟨.ofBytes bytes, h, Loader.load_ofBytes bytes⟩

theorem analyses_survive_strip (p : Program) :
    (p.histogram.sum = p.instructionCount ∧ p.instructionCount = p.strip.size ∧
      p.instructionCount + p.commentary = p.size) ∧
    (p.validate .strict = .ok () → ∃ loops, p.histogram[Instruction.loopStart.index]? = some loops ∧
      p.histogram[Instruction.loopEnd.index]? = some loops ∧ p.loopDepth ≤ loops) ∧
    ∀ files file, Loads files file p →
      let printed := stripFile files file false
      let q := Program.ofList printed.output
      printed.failure = none ∧ printed.output = p.strip.toList ++ [10] ∧
      q.histogram = p.histogram ∧ q.loopDepth = p.loopDepth ∧ q.commentary = 1 ∧
      (∀ mode, q.validate mode = (p.validate mode).mapError (·.relocate p.rank)) ∧
      ∀ copy, Loads files copy q →
        (stripFile files copy false).failure = none ∧
        (stripFile files copy false).output = printed.output ∧
        ∀ lenient stats,
          (checkFile files copy lenient stats).exitCode =
            (checkFile files file lenient stats).exitCode ∧
          ∀ e, p.validate (.ofLenient lenient) = .error e →
            (checkFile files file lenient stats).failure =
              some ⟨"validating " ++ file, [e.message]⟩ ∧
            (checkFile files copy lenient stats).failure =
              some ⟨"validating " ++ copy, [(e.relocate p.rank).message]⟩ := by
  refine ⟨⟨p.sum_histogram, p.size_strip.symm, p.instructionCount_add_commentary⟩, ?_, ?_⟩
  · intro h
    refine ⟨p.occurrences .loopStart, p.getElem?_histogram _, ?_, p.loopDepth_le_occurrences⟩
    rw [Program.occurrences_of_strict h, p.getElem?_histogram]
  · intro files file hp printed q
    have hprinted : printed = _ := stripFile_of_loads hp
    have hq : q = stripped p := by
      rw [← Program.ofList_toList (stripped p)]
      exact congrArg (fun o => Program.ofList o.output) hprinted
    have hstrip : q.strip = p.strip := by rw [hq, strip_stripped]
    have hvalidate (mode : ValidationMode) :
        q.validate mode = (p.validate mode).mapError (·.relocate p.rank) := by
      rw [hq, validate_stripped]
    refine ⟨by rw [hprinted], ?_, Program.histogram_of_strip hstrip,
      Program.loopDepth_of_strip hstrip, ?_, hvalidate, ?_⟩
    · rw [hprinted, stripped, Program.toList_ofList]
      rfl
    · rw [Program.commentary_of_strip hstrip, hq, size_stripped, Nat.add_sub_cancel_left]
    · intro copy hcopy
      refine ⟨by rw [stripFile_of_loads hcopy], ?_, ?_⟩
      · rw [stripFile_of_loads hcopy, hprinted, stripped, stripped, hstrip]
      · intro lenient stats
        refine ⟨?_, ?_⟩
        · rw [exitCode_checkFile hcopy, exitCode_checkFile hp, hvalidate]
          cases p.validate (.ofLenient lenient) <;> rfl
        · intro e he
          have hagain : q.validate (.ofLenient lenient) = .error (e.relocate p.rank) := by
            rw [hvalidate, he]
            rfl
          exact ⟨failure_checkFile_of_error hp he stats,
            failure_checkFile_of_error hcopy hagain stats⟩

theorem analyses_survive_strip_refused :
    let files : Files := fun name =>
      if name = "noted" then .ok (.ofBytes [43, 32, 93]) else .ok (.ofBytes [43, 93, 10])
    (Loads files "noted" (.ofList [43, 32, 93]) ∧ Loads files "bare" (.ofList [43, 93, 10])) ∧
      (stripFile files "bare" false).output = [43, 93, 10] ∧
      (checkFile files "noted" true false).failure = some ⟨"validating " ++ "noted",
        [ValidationError.message (.closedBeforeOpen 2)]⟩ ∧
      (checkFile files "bare" true false).failure = some ⟨"validating " ++ "bare",
        [ValidationError.message (.closedBeforeOpen 1)]⟩ := by
  intro files
  have hnoted : Loads files "noted" (.ofList [43, 32, 93]) := loads_of_bytes rfl
  have hbare : Loads files "bare" (.ofList [43, 93, 10]) := loads_of_bytes rfl
  obtain ⟨-, houtput, -, -, -, -, hagain⟩ :=
    (analyses_survive_strip (.ofList [43, 32, 93])).2.2 files "noted" hnoted
  rw [houtput] at hagain
  obtain ⟨-, hprinted, hcheck⟩ := hagain "bare" hbare
  obtain ⟨hfirst, hsecond⟩ := (hcheck true false).2 (.closedBeforeOpen 2) rfl
  exact ⟨⟨hnoted, hbare⟩, hprinted, hfirst, hsecond⟩

end TapeLang.Command
