import TapeLang.Machine.Error
import TapeLang.Stream.Sink
import TapeLang.Stream.Source
import TapeLang.Instruction
import TapeLang.Tape

namespace TapeLang

structure Device where
  tape : Tape
  input : Source
  output : Sink
  deriving DecidableEq, Repr

namespace Device

def cell (d : Device) : UInt8 :=
  d.tape.current

/-- A loop boundary acts on the instruction pointer alone, and commentary on nothing, so both
leave the device as it is; so does a refused byte, apart from the stream events that its transfer
consumed. -/
def perform (d : Device) (position : Nat) (b : UInt8) : Except ExecutionError Unit × Device :=
  match d with
  | ⟨tape, input, output⟩ =>
      match Instruction.ofByte? b with
      | some .increment => (.ok (), ⟨tape.increment, input, output⟩)
      | some .decrement => (.ok (), ⟨tape.decrement, input, output⟩)
      | some .moveRight =>
          match tape.moveRight with
          | .ok tape => (.ok (), ⟨tape, input, output⟩)
          | .error e =>
              (.error (.outOfRange position e.attempted tape.size), ⟨tape, input, output⟩)
      | some .moveLeft =>
          match tape.moveLeft with
          | .ok tape => (.ok (), ⟨tape, input, output⟩)
          | .error e =>
              (.error (.outOfRange position e.attempted tape.size), ⟨tape, input, output⟩)
      | some .output =>
          match output.writeByte tape.current with
          | (.ok (), output) => (.ok (), ⟨tape, input, output⟩)
          | (.error e, output) => (.error (.transfer position e), ⟨tape, input, output⟩)
      | some .input =>
          match input.readByte with
          | (.ok value, input) => (.ok (), ⟨tape.setCurrent value, input, output⟩)
          | (.error e, input) => (.error (.transfer position e), ⟨tape, input, output⟩)
      | _ => (.ok (), ⟨tape, input, output⟩)

end Device

end TapeLang
