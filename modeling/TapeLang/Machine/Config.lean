import TapeLang.Program.Balance
import TapeLang.Tape

namespace TapeLang

structure Config where
  tapeLength : Nat := Tape.defaultLength
  stepLimit : Option UInt64 := none
  validation : ValidationMode := .strict
  deriving DecidableEq, Repr

/-- Every byte executed is a step, commentary included; a jump is a loop boundary at which the
instruction pointer was redirected. -/
structure RunStats where
  steps : UInt64 := 0
  jumps : UInt64 := 0
  bytesRead : UInt64 := 0
  bytesWritten : UInt64 := 0
  deriving DecidableEq, Repr

namespace RunStats

def zero : RunStats := {}

def afterAtom (s : RunStats) : Option Instruction → RunStats
  | some .input => { s with steps := s.steps + 1, bytesRead := s.bytesRead + 1 }
  | some .output => { s with steps := s.steps + 1, bytesWritten := s.bytesWritten + 1 }
  | _ => { s with steps := s.steps + 1 }

def afterStep (s : RunStats) : RunStats :=
  { s with steps := s.steps + 1 }

def afterJump (s : RunStats) : RunStats :=
  { s with steps := s.steps + 1, jumps := s.jumps + 1 }

end RunStats

end TapeLang
