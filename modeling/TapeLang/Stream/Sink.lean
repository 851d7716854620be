import TapeLang.Stream.Fault

namespace TapeLang

inductive SinkEvent where
  | accept
  | claim (count : Nat)
  | fail (fault : Fault)
  deriving DecidableEq, Repr

/-- Past the last event every byte is accepted. -/
structure Sink where
  events : List SinkEvent
  stored : Array UInt8
  calls : Nat
  deriving DecidableEq, Repr

/-- A count stores no byte. -/
inductive Receipt where
  | accepted
  | count (actual : Nat)
  | failure (fault : Fault)
  deriving DecidableEq, Repr

namespace Sink

def ofEvents (events : List SinkEvent) : Sink :=
  ⟨events, #[], 0⟩

def empty : Sink :=
  ofEvents []

def receiptAfter (calls : Nat) : List SinkEvent → Receipt × List SinkEvent × Nat
  | [] => (.accepted, [], calls + 1)
  | .accept :: rest => (.accepted, rest, calls + 1)
  | .claim n :: rest => (.count n, rest, calls + 1)
  | .fail f :: rest =>
      if f.isInterruption then receiptAfter (calls + 1) rest
      else (.failure f, rest, calls + 1)

/-- A writer that claims one byte counts as having written it, although nothing is stored. -/
def writeByte (s : Sink) (value : UInt8) : Except TransferError Unit × Sink :=
  match s with
  | ⟨events, stored, calls⟩ =>
      match receiptAfter calls events with
      | (.accepted, events, calls) => (.ok (), ⟨events, stored.push value, calls⟩)
      | (.count 1, events, calls) => (.ok (), ⟨events, stored, calls⟩)
      | (.count n, events, calls) => (.error ⟨.write, .count n⟩, ⟨events, stored, calls⟩)
      | (.failure f, events, calls) => (.error ⟨.write, .fault f⟩, ⟨events, stored, calls⟩)

end Sink

end TapeLang
