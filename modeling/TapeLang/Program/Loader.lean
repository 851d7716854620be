import TapeLang.Event
import TapeLang.Stream.Source

namespace TapeLang

structure LoadError where
  bytesRead : Nat
  fault : Fault
  deriving DecidableEq, Repr

namespace LoadError

def message (e : LoadError) : String :=
  "failed to read program source after " ++ toString e.bytesRead ++ " bytes"

def causes (e : LoadError) : List String :=
  [e.fault.message]

end LoadError

namespace Source

/-- Reads byte by byte up to a report of the end of the stream or a failure that is no
interruption, appending to `code`. -/
def drainAfter (code : Array UInt8) (calls : Nat) :
    List SourceEvent → Except LoadError (Array UInt8) × Source
  | [] => (.ok code, ⟨[], calls + 1⟩)
  | .data bytes :: rest => drainAfter (code.appendList bytes) (calls + bytes.length) rest
  | .claim 0 :: rest => (.ok code, ⟨rest, calls + 1⟩)
  | .claim (_ + 1) :: rest => drainAfter (code.push 0) (calls + 1) rest
  | .fail f :: rest =>
      if f.isInterruption then drainAfter code (calls + 1) rest
      else (.error ⟨code.size, f⟩, ⟨rest, calls + 1⟩)

def drain (s : Source) : Except LoadError (Array UInt8) × Source :=
  drainAfter #[] s.calls s.events

theorem drainAfter_data_cons (code : Array UInt8) (calls : Nat) (b : UInt8) (bytes : List UInt8)
    (rest : List SourceEvent) :
    drainAfter code calls (.data (b :: bytes) :: rest) =
      drainAfter (code.push b) (calls + 1) (.data bytes :: rest) := by
  simp only [drainAfter, List.length_cons]
  congr 1
  omega

theorem drainAfter_eq_replyAfter (code : Array UInt8) (calls : Nat) (events : List SourceEvent) :
    drainAfter code calls events =
      match replyAfter calls events with
      | (.byte b, s) => drainAfter (code.push b) s.calls s.events
      | (.count 0, s) => (.ok code, s)
      | (.count (_ + 1), s) => drainAfter (code.push 0) s.calls s.events
      | (.failure f, s) => (.error ⟨code.size, f⟩, s) := by
  induction events generalizing calls with
  | nil => rfl
  | cons e rest ih =>
      match e with
      | .data [] => simpa [drainAfter, replyAfter] using ih calls
      | .data (b :: bytes) => simp [drainAfter_data_cons, replyAfter]
      | .claim 0 => rfl
      | .claim (_ + 1) => rfl
      | .fail f =>
          simp only [drainAfter, replyAfter]
          split
          · exact ih (calls + 1)
          · rfl

end Source

structure Loader where
  source : Source
  program : Option Program
  log : Log
  deriving DecidableEq, Repr

namespace Loader

def ofSource (source : Source) : Loader :=
  ⟨source, none, #[]⟩

/-- An empty program is worth reading again. -/
def cached? (l : Loader) : Option Program :=
  l.program.filter (fun p => !p.isEmpty)

def load (l : Loader) : Except LoadError Program × Loader :=
  match l.cached? with
  | some p => (.ok p, l)
  | none =>
      match l.source.drain with
      | (.error e, source) => (.error e, { l with source })
      | (.ok code, source) =>
          (.ok ⟨code⟩,
            ⟨source, some ⟨code⟩,
              l.log.push (.programLoaded code.size (Program.instructionCount ⟨code⟩))⟩)

def loadOnce (source : Source) : Except LoadError Program × Loader :=
  match (ofSource source).load with
  | (.error e, l) => (.error e, l)
  | (.ok _, l) => (.ok (l.program.getD default), l)

end Loader

end TapeLang
