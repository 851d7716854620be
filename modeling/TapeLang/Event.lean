import TapeLang.Machine.Config

namespace TapeLang

inductive Level where
  | trace
  | debug
  | info
  | warn
  | error
  deriving DecidableEq, Repr

namespace Level

def severity : Level → Nat
  | .trace => 0
  | .debug => 1
  | .info => 2
  | .warn => 3
  | .error => 4

def label : Level → String
  | .trace => "TRACE"
  | .debug => "DEBUG"
  | .info => "INFO"
  | .warn => "WARN"
  | .error => "ERROR"

end Level

inductive Event where
  | programLoaded (bytes instructions : Nat)
  | programValidated (mode : ValidationMode)
  | programRejected (mode : ValidationMode) (error : ValidationError)
  | skipLoop (start target : Nat)
  | repeatLoop (start target : Nat)
  | stepLimitReached (limit : UInt64) (ip : Nat)
  | programHalted (stats : RunStats)
  | batchLoaded (programs : Nat)
  | batchStarted (jobs : Nat)
  | runDone (steps : UInt64)
  deriving DecidableEq, Repr

def ValidationMode.label : ValidationMode → String
  | .strict => "Strict"
  | .lenient => "Lenient"

namespace Event

def level : Event → Level
  | .skipLoop _ _ => .trace
  | .repeatLoop _ _ => .trace
  | .runDone _ => .info
  | _ => .debug

def message : Event → String
  | .programLoaded _ _ => "program loaded"
  | .programValidated _ => "program validated"
  | .programRejected _ _ => "program rejected"
  | .skipLoop _ _ => "skip loop"
  | .repeatLoop _ _ => "repeat loop"
  | .stepLimitReached _ _ => "step limit reached"
  | .programHalted _ => "program halted"
  | .batchLoaded _ => "loaded batch"
  | .batchStarted _ => "running batch"
  | .runDone _ => "done"

def fields : Event → List (String × String)
  | .programLoaded bytes instructions =>
      [("bytes", toString bytes), ("instructions", toString instructions)]
  | .programValidated mode => [("mode", mode.label)]
  | .programRejected mode error => [("mode", mode.label), ("error", error.message)]
  | .skipLoop start target => [("from", toString start), ("to", toString target)]
  | .repeatLoop start target => [("from", toString start), ("to", toString target)]
  | .stepLimitReached limit ip => [("limit", toString limit), ("ip", toString ip)]
  | .programHalted stats =>
      [("steps", toString stats.steps), ("jumps", toString stats.jumps),
        ("bytes_read", toString stats.bytesRead), ("bytes_written", toString stats.bytesWritten)]
  | .batchLoaded programs => [("programs", toString programs)]
  | .batchStarted jobs => [("jobs", toString jobs)]
  | .runDone steps => [("steps", toString steps)]

def isJump : Event → Bool
  | .skipLoop _ _ => true
  | .repeatLoop _ _ => true
  | _ => false

end Event

/-- The oldest event comes first. -/
abbrev Log := Array Event

end TapeLang
