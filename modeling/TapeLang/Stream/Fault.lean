namespace TapeLang

/-- Only an interruption is treated apart, by asking again; any other kind is kept by its label. -/
inductive FaultKind where
  | interrupted
  | other (label : String)
  deriving DecidableEq, Repr

structure Fault where
  kind : FaultKind
  message : String
  deriving DecidableEq, Repr

def Fault.isInterruption (f : Fault) : Bool :=
  f.kind = .interrupted

inductive Direction where
  | read
  | write
  deriving DecidableEq, Repr

def Direction.verb : Direction → String
  | .read => "read"
  | .write => "write"

inductive Shortfall where
  | count (actual : Nat)
  | fault (fault : Fault)
  deriving DecidableEq, Repr

structure TransferError where
  direction : Direction
  shortfall : Shortfall
  deriving DecidableEq, Repr

namespace TransferError

def expected (_ : TransferError) : Nat :=
  1

def actual (e : TransferError) : Nat :=
  match e.shortfall with
  | .count actual => actual
  | .fault _ => 0

def fault? (e : TransferError) : Option Fault :=
  match e.shortfall with
  | .count _ => none
  | .fault fault => some fault

def message (e : TransferError) : String :=
  e.direction.verb ++ " failed: expected " ++ toString e.expected ++ " byte, transferred " ++
    toString e.actual

def causes (e : TransferError) : List String :=
  e.fault?.toList.map Fault.message

end TransferError

end TapeLang
