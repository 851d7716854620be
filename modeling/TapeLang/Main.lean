import TapeLang.Command.Invoke

namespace TapeLang.Command

def faultOf : IO.Error → Fault
  | .noFileOrDirectory _ code details => osFault code details
  | .inappropriateType _ code details => osFault code details
  | .permissionDenied _ code details => osFault code details
  | e => ⟨.other "Other", toString e⟩
where
  osFault (code : UInt32) (details : String) : Fault :=
    ⟨.other "Other", details ++ " (os error " ++ toString code ++ ")"⟩

/-- A failure to read is found only by a program that reads. -/
def readSource (name : String) : IO (Except Fault Source) := do
  match ← (IO.FS.Handle.mk name .read).toBaseIO with
  | .error e => return .error (faultOf e)
  | .ok handle =>
      match ← handle.readBinToEnd.toBaseIO with
      | .error e => return .ok (.ofEvents [.fail (faultOf e)])
      | .ok bytes => return .ok (.ofBytes bytes.toList)

def readFiles (names : List String) : IO Files := do
  let sources ← names.mapM fun name => return (name, ← readSource name)
  return fun name => (sources.lookup name).getD (.error missing)

def present (threshold : Threshold) (outcome : Outcome) : IO Unit := do
  (← IO.getStdout).write ⟨outcome.output.toArray⟩
  (outcome.errorTexts threshold).forM IO.eprintln

def readStdin : IO (List UInt8) := do
  (← IO.getStdout).flush
  return (← (← IO.getStdin).read 1).toList

/-- More rounds than a machine can make in any time. -/
def rounds : Nat :=
  0x4000000000000000

def perform (threshold : Threshold) (files : Files) : Action → IO (Option Outcome)
  | .run file input engine stats =>
      driveFile readStdin (present threshold) rounds files file input engine stats
  | action => return action.perform rounds files .empty

def usage : String :=
  "usage: [-v] run FILE | check FILE | strip FILE | batch FILE..."

end TapeLang.Command

open TapeLang.Command in
def main (args : List String) : IO UInt32 := do
  match Invocation.ofArguments? args with
  | none =>
      IO.eprintln usage
      return usageExitCode.toUInt32
  | some invocation =>
      let threshold := Threshold.select (← IO.getEnv "RUST_LOG") invocation.verbose
      match ← perform threshold (← readFiles invocation.action.files) invocation.action with
      | none => return 1
      | some outcome =>
          present threshold outcome
          return outcome.exitCode.toUInt32
