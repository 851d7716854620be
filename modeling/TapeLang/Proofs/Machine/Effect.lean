import TapeLang.Machine.Device
import TapeLang.Proofs.Program.Nesting

namespace TapeLang

inductive Failure where
  | transfer (error : TransferError)
  | outOfRange (attempted : Int) (tapeLength : Nat)
  deriving DecidableEq, Repr

def Failure.located (position : Nat) : Failure → ExecutionError
  | .transfer error => .transfer position error
  | .outOfRange attempted tapeLength => .outOfRange position attempted tapeLength

theorem Failure.located_inj {i j : Nat} {f g : Failure} (h : f.located i = g.located j) :
    i = j ∧ f = g := by
  cases f <;> cases g <;> simp_all [Failure.located]

theorem Failure.position?_located (position : Nat) (f : Failure) :
    (f.located position).position? = some position := by
  cases f <;> rfl

def ExecutionError.relocate (g : Nat → Nat) : ExecutionError → ExecutionError
  | .transfer position error => .transfer (g position) error
  | .outOfRange position attempted tapeLength => .outOfRange (g position) attempted tapeLength
  | .unmatchedDelimiter position => .unmatchedDelimiter (g position)
  | .stepLimitExceeded limit => .stepLimitExceeded limit

theorem Failure.relocate_located (g : Nat → Nat) (position : Nat) (f : Failure) :
    (f.located position).relocate g = f.located (g position) := by
  cases f <;> rfl

namespace Device

inductive Effect : Option Instruction → Device → Except Failure Unit → Device → Prop
  | commentary (d : Device) : Effect none d (.ok ()) d
  | increment (d : Device) :
      Effect (some .increment) d (.ok ()) { d with tape := d.tape.setCurrent (d.cell + 1) }
  | decrement (d : Device) :
      Effect (some .decrement) d (.ok ()) { d with tape := d.tape.setCurrent (d.cell - 1) }
  | moveRight (d : Device) (h : d.tape.pointer + 1 < d.tape.cells.size) :
      Effect (some .moveRight) d (.ok ())
        { d with tape := ⟨d.tape.cells, d.tape.pointer + 1, h⟩ }
  | rightEdge (d : Device) (h : d.tape.pointer + 1 = d.tape.size) :
      Effect (some .moveRight) d (.error (.outOfRange d.tape.size d.tape.size)) d
  | moveLeft (d : Device) (h : d.tape.pointer ≠ 0) :
      Effect (some .moveLeft) d (.ok ())
        { d with tape := ⟨d.tape.cells, d.tape.pointer - 1,
          Nat.lt_of_le_of_lt (Nat.sub_le _ _) d.tape.pointer_lt⟩ }
  | leftEdge (d : Device) (h : d.tape.pointer = 0) :
      Effect (some .moveLeft) d (.error (.outOfRange (-1) d.tape.size)) d
  | output (d : Device) {output : Sink} (h : d.output.writeByte d.cell = (.ok (), output)) :
      Effect (some .output) d (.ok ()) { d with output }
  | outputFails (d : Device) {output : Sink} {e : TransferError}
      (h : d.output.writeByte d.cell = (.error e, output)) :
      Effect (some .output) d (.error (.transfer e)) { d with output }
  | input (d : Device) {input : Source} {value : UInt8}
      (h : d.input.readByte = (.ok value, input)) :
      Effect (some .input) d (.ok ()) { d with tape := d.tape.setCurrent value, input }
  | inputFails (d : Device) {input : Source} {e : TransferError}
      (h : d.input.readByte = (.error e, input)) :
      Effect (some .input) d (.error (.transfer e)) { d with input }

theorem perform_of_effect {d d' : Device} {b : UInt8} {r : Except Failure Unit}
    (h : Effect (Instruction.ofByte? b) d r d') (position : Nat) :
    d.perform position b = (r.mapError (·.located position), d') := by
  obtain ⟨tape, input, output⟩ := d
  generalize hi : Instruction.ofByte? b = i at h
  unfold perform
  simp only [hi]
  cases h with
  | commentary => rfl
  | increment => rfl
  | decrement => rfl
  | moveRight _ h =>
      simp only [Tape.moveRight]
      rw [dif_pos h]
      rfl
  | rightEdge _ h =>
      rw [Tape.moveRight_eq_error_iff.2 ⟨h, rfl⟩]
      rfl
  | moveLeft _ h =>
      simp only [Tape.moveLeft]
      rw [if_neg h]
      rfl
  | leftEdge _ h =>
      rw [Tape.moveLeft_eq_error_iff.2 ⟨h, rfl⟩]
      rfl
  | output _ h =>
      simp only [cell] at h
      simp only [h]
      rfl
  | outputFails _ h =>
      simp only [cell] at h
      simp only [h]
      rfl
  | input _ h =>
      simp only [h]
      rfl
  | inputFails _ h =>
      simp only [h]
      rfl

theorem exists_effect (d : Device) {b : UInt8} (hb : IsAtom b) :
    ∃ r d', Effect (Instruction.ofByte? b) d r d' := by
  cases hi : Instruction.ofByte? b with
  | none => exact ⟨_, _, .commentary d⟩
  | some i =>
      have hbyte : b = i.byte := Instruction.ofByte?_eq_some_iff.1 hi
      cases i with
      | increment => exact ⟨_, _, .increment d⟩
      | decrement => exact ⟨_, _, .decrement d⟩
      | moveRight =>
          by_cases h : d.tape.pointer + 1 < d.tape.cells.size
          · exact ⟨_, _, .moveRight d h⟩
          · have hlt := d.tape.pointer_lt
            have hedge : d.tape.pointer + 1 = d.tape.size := by unfold Tape.size; omega
            exact ⟨_, _, .rightEdge d hedge⟩
      | moveLeft =>
          by_cases h : d.tape.pointer = 0
          · exact ⟨_, _, .leftEdge d h⟩
          · exact ⟨_, _, .moveLeft d h⟩
      | output =>
          cases h : d.output.writeByte d.cell with
          | mk r output =>
              cases r with
              | ok => exact ⟨_, _, .output d h⟩
              | error e => exact ⟨_, _, .outputFails d h⟩
      | input =>
          cases h : d.input.readByte with
          | mk r input =>
              cases r with
              | ok value => exact ⟨_, _, .input d h⟩
              | error e => exact ⟨_, _, .inputFails d h⟩
      | loopStart => exact absurd hbyte hb.1
      | loopEnd => exact absurd hbyte hb.2

theorem Effect.deterministic {b : UInt8} {d d₁ d₂ : Device} {r₁ r₂ : Except Failure Unit}
    (h₁ : Effect (Instruction.ofByte? b) d r₁ d₁) (h₂ : Effect (Instruction.ofByte? b) d r₂ d₂) :
    r₁ = r₂ ∧ d₁ = d₂ := by
  have h := (perform_of_effect h₁ 0).symm.trans (perform_of_effect h₂ 0)
  obtain ⟨hr, rfl⟩ := Prod.mk.inj h
  refine ⟨?_, rfl⟩
  cases r₁ with
  | ok => cases r₂ <;> simp_all [Except.mapError]
  | error f =>
      cases r₂ with
      | ok => simp [Except.mapError] at hr
      | error g => rw [(Failure.located_inj (Except.error.inj hr)).2]

def withInput (d : Device) (s : Source) : Device :=
  { d with input := s }

def withOutput (d : Device) (s : Sink) : Device :=
  { d with output := s }

section

variable {i : Option Instruction} {d d' : Device} {f : Except Failure Unit}

theorem Effect.reads_or_ignores (h : Effect i d f d') :
    (d'.input = d.input ∧ ∀ s, Effect i (d.withInput s) f (d'.withInput s)) ∨
      ∃ r, d.input.readByte = (r, d'.input) ∧ (∀ e, r = .error e → f = .error (.transfer e)) ∧
        ∀ s t, s.readByte = (r, t) → Effect i (d.withInput s) f (d'.withInput t) := by
  cases h with
  | commentary => exact .inl ⟨rfl, fun s => .commentary (d.withInput s)⟩
  | increment => exact .inl ⟨rfl, fun s => .increment (d.withInput s)⟩
  | decrement => exact .inl ⟨rfl, fun s => .decrement (d.withInput s)⟩
  | moveRight _ hp => exact .inl ⟨rfl, fun s => .moveRight (d.withInput s) hp⟩
  | rightEdge _ hp => exact .inl ⟨rfl, fun s => .rightEdge (d.withInput s) hp⟩
  | moveLeft _ hp => exact .inl ⟨rfl, fun s => .moveLeft (d.withInput s) hp⟩
  | leftEdge _ hp => exact .inl ⟨rfl, fun s => .leftEdge (d.withInput s) hp⟩
  | output _ hw => exact .inl ⟨rfl, fun s => .output (d.withInput s) hw⟩
  | outputFails _ hw => exact .inl ⟨rfl, fun s => .outputFails (d.withInput s) hw⟩
  | input _ hr => exact .inr ⟨_, hr, nofun, fun s t ht => .input (d.withInput s) ht⟩
  | inputFails _ hr =>
      refine .inr ⟨_, hr, ?_, fun s t ht => .inputFails (d.withInput s) ht⟩
      rintro e ⟨⟩
      rfl

theorem Effect.writes_or_ignores (h : Effect i d f d') :
    (d'.output = d.output ∧ ∀ s, Effect i (d.withOutput s) f (d'.withOutput s)) ∨
      ∃ r, d.output.writeByte d.cell = (r, d'.output) ∧
        ∀ s t, s.writeByte d.cell = (r, t) → Effect i (d.withOutput s) f (d'.withOutput t) := by
  cases h with
  | commentary => exact .inl ⟨rfl, fun s => .commentary (d.withOutput s)⟩
  | increment => exact .inl ⟨rfl, fun s => .increment (d.withOutput s)⟩
  | decrement => exact .inl ⟨rfl, fun s => .decrement (d.withOutput s)⟩
  | moveRight _ hp => exact .inl ⟨rfl, fun s => .moveRight (d.withOutput s) hp⟩
  | rightEdge _ hp => exact .inl ⟨rfl, fun s => .rightEdge (d.withOutput s) hp⟩
  | moveLeft _ hp => exact .inl ⟨rfl, fun s => .moveLeft (d.withOutput s) hp⟩
  | leftEdge _ hp => exact .inl ⟨rfl, fun s => .leftEdge (d.withOutput s) hp⟩
  | output _ hw => exact .inr ⟨_, hw, fun s t ht => .output (d.withOutput s) ht⟩
  | outputFails _ hw => exact .inr ⟨_, hw, fun s t ht => .outputFails (d.withOutput s) ht⟩
  | input _ hr => exact .inl ⟨rfl, fun s => .input (d.withOutput s) hr⟩
  | inputFails _ hr => exact .inl ⟨rfl, fun s => .inputFails (d.withOutput s) hr⟩

end

theorem Effect.tape_of_error {i : Option Instruction} {d d' : Device} {f : Failure}
    (h : Effect i d (.error f) d') : d'.tape = d.tape := by
  cases h <;> rfl

end Device

end TapeLang
