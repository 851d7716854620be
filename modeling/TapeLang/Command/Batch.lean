import TapeLang.Batch
import TapeLang.Command.Inspect

namespace TapeLang.Command

def readPrograms (files : Files) : List String → Except Failure (List Program) × List Notice
  | [] => (.ok [], [])
  | file :: rest =>
      match readProgram files file with
      | (.error e, notices) => (.error e, notices)
      | (.ok program, notices) =>
          let (programs, more) := readPrograms files rest
          (programs.map (program :: ·), notices ++ more)

def block (file : String) (output : List UInt8) : List UInt8 :=
  textBytes ("== " ++ file ++ "\n") ++ output ++ [lineEnd]

def blocks : List (String × Except InterpretError (List UInt8)) → List UInt8
  | [] => []
  | (file, .ok output) :: rest => block file output ++ blocks rest
  | (_, .error _) :: rest => blocks rest

def reports : List (String × Except InterpretError (List UInt8)) → List String
  | [] => []
  | (_, .ok _) :: rest => reports rest
  | (file, .error e) :: rest => (file ++ ": " ++ e.message) :: reports rest

def batchFiles (fuel : Nat) (files : Files) (names : List String) (engine : EngineOptions) :
    Option Outcome :=
  match engine.config? with
  | .error e => some ⟨[], [], some e⟩
  | .ok config =>
      match readPrograms files names with
      | (.error e, notices) => some ⟨[], notices, some e⟩
      | (.ok programs, notices) => do
          let ends := runBatch fuel config (programs.map (⟨·, []⟩))
          let results ← ends.mapM JobReport.result
          let named := names.zip results
          let failed := reports named
          let events := .batchLoaded programs.length :: .batchStarted programs.length ::
            ends.flatMap (·.log.toList)
          return ⟨blocks named,
            notices ++ events.map Notice.event ++ failed.map Notice.line,
            if failed = [] then none
            else some ⟨toString failed.length ++ " of " ++ toString names.length ++
              " programs failed", []⟩⟩

end TapeLang.Command
