import TapeLang.Command.Arguments
import TapeLang.Command.Directory
import TapeLang.Command.Outcome
import TapeLang.Interpretation

namespace TapeLang.Command

def openFile (files : Files) (file : String) : Except Failure Source :=
  match files file with
  | .error fault => .error ⟨"opening " ++ file, [fault.message]⟩
  | .ok source => .ok source

def readProgram (files : Files) (file : String) : Except Failure Program × List Notice :=
  match openFile files file with
  | .error e => (.error e, [])
  | .ok source =>
      match (Loader.ofSource source).load with
      | (.error e, loader) =>
          (.error ⟨"loading " ++ file, e.message :: e.causes⟩, loader.log.toList.map .event)
      | (.ok program, loader) => (.ok program, loader.log.toList.map .event)

def readValid (files : Files) (file : String) (mode : ValidationMode) :
    Except Failure Program × List Notice :=
  match readProgram files file with
  | (.error e, notices) => (.error e, notices)
  | (.ok program, notices) =>
      let notices := notices ++ [.event (program.validationEvent mode)]
      match program.validate mode with
      | .error e => (.error ⟨"validating " ++ file, [e.message]⟩, notices)
      | .ok () => (.ok program, notices)

def tapeLengthFailure : Failure :=
  ⟨"--tape-length must be at least 1", []⟩

def EngineOptions.config? (e : EngineOptions) : Except Failure Config :=
  if e.tapeLength = 0 then .error tapeLengthFailure else .ok e.config

end TapeLang.Command
