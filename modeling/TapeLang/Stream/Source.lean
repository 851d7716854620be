import TapeLang.Stream.Fault

namespace TapeLang

inductive SourceEvent where
  | data (bytes : List UInt8)
  | claim (count : Nat)
  | fail (fault : Fault)
  deriving DecidableEq, Repr

def SourceEvent.bytes : SourceEvent → List UInt8
  | .data bytes => bytes
  | .claim _ => []
  | .fail _ => []

/-- Past the last event every call reports the end of the stream. -/
structure Source where
  events : List SourceEvent
  calls : Nat
  deriving DecidableEq, Repr

/-- A count moves no byte. -/
inductive Reply where
  | byte (value : UInt8)
  | count (actual : Nat)
  | failure (fault : Fault)
  deriving DecidableEq, Repr

namespace Source

def ofEvents (events : List SourceEvent) : Source :=
  ⟨events, 0⟩

def ofBytes (bytes : List UInt8) : Source :=
  ofEvents [.data bytes]

def empty : Source :=
  ofEvents []

def left (s : Source) : Nat :=
  s.events.foldl (fun n e => n + e.bytes.length) 0

def replyAfter (calls : Nat) : List SourceEvent → Reply × Source
  | [] => (.count 0, ⟨[], calls + 1⟩)
  | .data [] :: rest => replyAfter calls rest
  | .data (b :: bytes) :: rest => (.byte b, ⟨.data bytes :: rest, calls + 1⟩)
  | .claim n :: rest => (.count n, ⟨rest, calls + 1⟩)
  | .fail f :: rest =>
      if f.isInterruption then replyAfter (calls + 1) rest
      else (.failure f, ⟨rest, calls + 1⟩)

def reply (s : Source) : Reply × Source :=
  replyAfter s.calls s.events

/-- A reader that claims one byte without giving it leaves the zero of the fresh buffer. -/
def readByte (s : Source) : Except TransferError UInt8 × Source :=
  match s.reply with
  | (.byte b, s) => (.ok b, s)
  | (.count 1, s) => (.ok 0, s)
  | (.count n, s) => (.error ⟨.read, .count n⟩, s)
  | (.failure f, s) => (.error ⟨.read, .fault f⟩, s)

end Source

end TapeLang
