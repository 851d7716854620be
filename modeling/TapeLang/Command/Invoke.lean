import TapeLang.Command.Batch
import TapeLang.Command.Run

namespace TapeLang.Command

def Action.perform (fuel : Nat) (files : Files) (stdin : Source) : Action → Option Outcome
  | .run file input engine stats => runFile fuel files stdin file input engine stats
  | .check file lenient stats => some (checkFile files file lenient stats)
  | .strip file listing => some (stripFile files file listing)
  | .batch names engine => batchFiles fuel files names engine

def usageExitCode : Nat :=
  2

end TapeLang.Command
