import TapeLang.Proofs.Machine.Effect
import TapeLang.Proofs.Stream.Reply

namespace TapeLang

namespace Tape

variable {t t' : Tape} {value : UInt8}

def Shows (t : Tape) (value : UInt8) : Prop :=
  t.cells[t.pointer]? = some value

structure Stores (t : Tape) (value : UInt8) (t' : Tape) : Prop where
  pointer_eq : t'.pointer = t.pointer
  cell_eq : t'.cells[t.pointer]? = some value
  others_eq : ∀ i, i ≠ t.pointer → t'.cells[i]? = t.cells[i]?

theorem shows_iff : t.Shows value ↔ t.current = value := by
  rw [Shows, getElem?_pointer, Option.some_inj]

theorem stores_iff : t.Stores value t' ↔ t' = t.setCurrent value := by
  constructor
  · intro h
    refine Tape.ext (Array.ext_getElem? fun i => ?_) h.pointer_eq
    rw [getElem?_setCurrent]
    split
    · rename_i hi
      rw [hi]
      exact h.cell_eq
    · rename_i hi
      exact h.others_eq i hi
  · rintro rfl
    refine ⟨rfl, ?_, fun i hi => ?_⟩
    · rw [getElem?_setCurrent, if_pos rfl]
    · rw [getElem?_setCurrent, if_neg hi]

end Tape

namespace Device

/-- The instruction table, on bytes, cells and the answers of the streams. -/
inductive Acts : Device → UInt8 → Except Failure Unit → Device → Prop
  | commentary {b : UInt8} (hb : b ∉ ['+', '-', '>', '<', '.', ',', '[', ']'].map Char.toUInt8)
      (d : Device) : Acts d b (.ok ()) d
  | increment {d : Device} {value : UInt8} {tape : Tape} (hc : d.tape.Shows value)
      (ht : d.tape.Stores (value + 1) tape) : Acts d '+'.toUInt8 (.ok ()) { d with tape }
  | decrement {d : Device} {value : UInt8} {tape : Tape} (hc : d.tape.Shows value)
      (ht : d.tape.Stores (value - 1) tape) : Acts d '-'.toUInt8 (.ok ()) { d with tape }
  | moveRight {d : Device} {tape : Tape} (hc : tape.cells = d.tape.cells)
      (hp : tape.pointer = d.tape.pointer + 1) : Acts d '>'.toUInt8 (.ok ()) { d with tape }
  | rightEdge {d : Device} (hp : d.tape.pointer + 1 = d.tape.cells.size) :
      Acts d '>'.toUInt8 (.error (.outOfRange d.tape.cells.size d.tape.cells.size)) d
  | moveLeft {d : Device} {tape : Tape} (hc : tape.cells = d.tape.cells)
      (hp : tape.pointer + 1 = d.tape.pointer) : Acts d '<'.toUInt8 (.ok ()) { d with tape }
  | leftEdge {d : Device} (hp : d.tape.pointer = 0) :
      Acts d '<'.toUInt8 (.error (.outOfRange (-1) d.tape.cells.size)) d
  | output {d : Device} {value : UInt8} {verdict : SinkEvent} {output : Sink}
      (hc : d.tape.Shows value) (hw : d.output.Yields value verdict output)
      (hv : verdict.receipt.outcome = .ok ()) : Acts d '.'.toUInt8 (.ok ()) { d with output }
  | outputFails {d : Device} {value : UInt8} {verdict : SinkEvent} {output : Sink}
      {e : TransferError} (hc : d.tape.Shows value) (hw : d.output.Yields value verdict output)
      (hv : verdict.receipt.outcome = .error e) :
      Acts d '.'.toUInt8 (.error (.transfer e)) { d with output }
  | input {d : Device} {reply : Reply} {input : Source} {value : UInt8} {tape : Tape}
      (hr : d.input.Yields reply input) (hv : reply.outcome = .ok value)
      (ht : d.tape.Stores value tape) : Acts d ','.toUInt8 (.ok ()) { d with tape, input }
  | inputFails {d : Device} {reply : Reply} {input : Source} {e : TransferError}
      (hr : d.input.Yields reply input) (hv : reply.outcome = .error e) :
      Acts d ','.toUInt8 (.error (.transfer e)) { d with input }

theorem ofByte?_eq_none_iff {b : UInt8} : Instruction.ofByte? b = none ↔
    b ∉ ['+', '-', '>', '<', '.', ',', '[', ']'].map Char.toUInt8 := by
  constructor
  · intro h hb
    have hsome : (['+', '-', '>', '<', '.', ',', '[', ']'].map Char.toUInt8).all
        (fun b => (Instruction.ofByte? b).isSome) = true := by decide
    have hb := List.all_eq_true.1 hsome b hb
    rw [h] at hb
    cases hb
  · intro hb
    cases h : Instruction.ofByte? b with
    | none => rfl
    | some i =>
        obtain rfl := Instruction.ofByte?_eq_some_iff.1 h
        exact absurd (by cases i <;> decide) hb

variable {b : UInt8} {d d' : Device} {r : Except Failure Unit}

theorem Acts.effect (h : d.Acts b r d') : Effect (Instruction.ofByte? b) d r d' := by
  cases h with
  | commentary hb =>
      rw [ofByte?_eq_none_iff.2 hb]
      exact .commentary d
  | increment hc ht =>
      obtain rfl := Tape.shows_iff.1 hc
      obtain rfl := Tape.stores_iff.1 ht
      exact .increment d
  | decrement hc ht =>
      obtain rfl := Tape.shows_iff.1 hc
      obtain rfl := Tape.stores_iff.1 ht
      exact .decrement d
  | @moveRight _ tape hc hp =>
      have hlt : d.tape.pointer + 1 < d.tape.cells.size := hc ▸ hp ▸ tape.pointer_lt
      obtain rfl : tape = ⟨d.tape.cells, d.tape.pointer + 1, hlt⟩ := Tape.ext hc hp
      exact .moveRight d hlt
  | rightEdge hp => exact .rightEdge d hp
  | @moveLeft _ tape hc hp =>
      have hne : d.tape.pointer ≠ 0 := by omega
      obtain rfl : tape = ⟨d.tape.cells, d.tape.pointer - 1,
        Nat.lt_of_le_of_lt (Nat.sub_le _ _) d.tape.pointer_lt⟩ :=
          Tape.ext hc (Nat.eq_sub_of_add_eq hp)
      exact .moveLeft d hne
  | leftEdge hp => exact .leftEdge d hp
  | output hc hw hv =>
      obtain rfl := Tape.shows_iff.1 hc
      exact .output d (Sink.writeByte_eq_iff.2 ⟨_, hw, hv⟩)
  | outputFails hc hw hv =>
      obtain rfl := Tape.shows_iff.1 hc
      exact .outputFails d (Sink.writeByte_eq_iff.2 ⟨_, hw, hv⟩)
  | input hr hv ht =>
      obtain rfl := Tape.stores_iff.1 ht
      exact .input d (Source.readByte_eq_iff.2 ⟨_, hr, hv⟩)
  | inputFails hr hv => exact .inputFails d (Source.readByte_eq_iff.2 ⟨_, hr, hv⟩)

theorem Effect.acts (h : Effect (Instruction.ofByte? b) d r d') : d.Acts b r d' := by
  generalize hi : Instruction.ofByte? b = i at h
  cases i with
  | none =>
      cases h
      exact .commentary (ofByte?_eq_none_iff.1 hi) d
  | some i =>
      obtain rfl := Instruction.ofByte?_eq_some_iff.1 hi
      cases h with
      | increment => exact .increment (Tape.shows_iff.2 rfl) (Tape.stores_iff.2 rfl)
      | decrement => exact .decrement (Tape.shows_iff.2 rfl) (Tape.stores_iff.2 rfl)
      | moveRight => exact .moveRight rfl rfl
      | rightEdge _ hp => exact .rightEdge hp
      | moveLeft _ hp => exact .moveLeft rfl (Nat.sub_add_cancel (Nat.pos_of_ne_zero hp))
      | leftEdge _ hp => exact .leftEdge hp
      | output _ hw =>
          obtain ⟨verdict, hy, hv⟩ := Sink.writeByte_eq_iff.1 hw
          exact .output (Tape.shows_iff.2 rfl) hy hv
      | outputFails _ hw =>
          obtain ⟨verdict, hy, hv⟩ := Sink.writeByte_eq_iff.1 hw
          exact .outputFails (Tape.shows_iff.2 rfl) hy hv
      | input _ hr =>
          obtain ⟨reply, hy, hv⟩ := Source.readByte_eq_iff.1 hr
          exact .input hy hv (Tape.stores_iff.2 rfl)
      | inputFails _ hr =>
          obtain ⟨reply, hy, hv⟩ := Source.readByte_eq_iff.1 hr
          exact .inputFails hy hv

theorem exists_acts (d : Device) (hb : IsAtom b) : ∃ r d', d.Acts b r d' := by
  obtain ⟨r, d', h⟩ := d.exists_effect hb
  exact ⟨r, d', h.acts⟩

end Device

end TapeLang
