import TapeLang.Program.Basic

namespace TapeLang

structure ListingLine where
  offset : Nat
  instruction : Instruction
  deriving DecidableEq, Repr

namespace ListingLine

def text (l : ListingLine) : List Char :=
  List.leftpad 5 ' ' (Nat.toDigits 10 l.offset) ++
    [' ', ' ', l.instruction.char, ' ', ' '] ++ l.instruction.mnemonic.toList ++ ['\n']

end ListingLine

namespace Program

def linesFrom (offset : Nat) : List UInt8 → List ListingLine
  | [] => []
  | b :: rest =>
      match Instruction.ofByte? b with
      | some i => ⟨offset, i⟩ :: linesFrom (offset + 1) rest
      | none => linesFrom (offset + 1) rest

def lines (p : Program) : List ListingLine :=
  linesFrom 0 p.toList

def listing (p : Program) : String :=
  String.ofList (p.lines.flatMap ListingLine.text)

theorem length_linesFrom (offset : Nat) (bytes : List UInt8) :
    (linesFrom offset bytes).length = bytes.countP isInstruction := by
  induction bytes generalizing offset with
  | nil => rfl
  | cons b rest ih =>
      cases h : Instruction.ofByte? b <;> simp [linesFrom, isInstruction, h, ih]

theorem length_lines (p : Program) : p.lines.length = p.instructionCount :=
  length_linesFrom 0 p.toList

end Program

end TapeLang
