namespace TapeLang

inductive Instruction where
  | increment
  | decrement
  | moveRight
  | moveLeft
  | output
  | input
  | loopStart
  | loopEnd
  deriving DecidableEq, Repr

namespace Instruction

def all : List Instruction :=
  [.increment, .decrement, .moveRight, .moveLeft, .output, .input, .loopStart, .loopEnd]

theorem mem_all (i : Instruction) : i ∈ all := by
  cases i <;> decide

def index : Instruction → Nat
  | .increment => 0
  | .decrement => 1
  | .moveRight => 2
  | .moveLeft => 3
  | .output => 4
  | .input => 5
  | .loopStart => 6
  | .loopEnd => 7

theorem getElem?_all_index (i : Instruction) : all[i.index]? = some i := by
  cases i <;> rfl

def char : Instruction → Char
  | .increment => '+'
  | .decrement => '-'
  | .moveRight => '>'
  | .moveLeft => '<'
  | .output => '.'
  | .input => ','
  | .loopStart => '['
  | .loopEnd => ']'

def byte : Instruction → UInt8
  | .increment => 43
  | .decrement => 45
  | .moveRight => 62
  | .moveLeft => 60
  | .output => 46
  | .input => 44
  | .loopStart => 91
  | .loopEnd => 93

theorem char_toUInt8 (i : Instruction) : i.char.toUInt8 = i.byte := by
  cases i <;> rfl

def ofByte? : UInt8 → Option Instruction
  | 43 => some .increment
  | 45 => some .decrement
  | 62 => some .moveRight
  | 60 => some .moveLeft
  | 46 => some .output
  | 44 => some .input
  | 91 => some .loopStart
  | 93 => some .loopEnd
  | _ => none

@[simp]
theorem ofByte?_byte (i : Instruction) : ofByte? i.byte = some i := by
  cases i <;> rfl

theorem ofByte?_eq_some_iff {b : UInt8} {i : Instruction} : ofByte? b = some i ↔ b = i.byte := by
  constructor
  · intro h
    unfold ofByte? at h
    split at h <;> simp only [Option.some.injEq, reduceCtorEq] at h <;> subst h <;> rfl
  · rintro rfl
    exact ofByte?_byte i

theorem byte_inj {i j : Instruction} : i.byte = j.byte ↔ i = j :=
  ⟨fun h => Option.some.inj (by rw [← ofByte?_byte i, h, ofByte?_byte]), congrArg byte⟩

def mnemonic : Instruction → String
  | .increment => "INC"
  | .decrement => "DEC"
  | .moveRight => "RIGHT"
  | .moveLeft => "LEFT"
  | .output => "OUT"
  | .input => "IN"
  | .loopStart => "LOOP"
  | .loopEnd => "END"

theorem mnemonic_inj {i j : Instruction} : i.mnemonic = j.mnemonic ↔ i = j :=
  ⟨fun h => by cases i <;> cases j <;> first | rfl | exact absurd h (by decide), congrArg mnemonic⟩

end Instruction

def isInstruction (b : UInt8) : Bool :=
  (Instruction.ofByte? b).isSome

theorem isInstruction_iff {b : UInt8} : isInstruction b = true ↔ ∃ i : Instruction, b = i.byte := by
  simp only [isInstruction, Option.isSome_iff_exists, Instruction.ofByte?_eq_some_iff]

@[simp]
theorem isInstruction_byte (i : Instruction) : isInstruction i.byte = true :=
  isInstruction_iff.2 ⟨i, rfl⟩

end TapeLang
