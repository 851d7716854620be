import TapeLang.Program.Basic

namespace TapeLang.Program

/-- The position of the loop end that leaves the bytes at depth `depth`, when the first of them
stands at `position`. -/
def closeIn (depth position : Nat) : List UInt8 → Option Nat
  | [] => none
  | b :: rest =>
      if b = Instruction.loopStart.byte then closeIn (depth + 1) (position + 1) rest
      else if b = Instruction.loopEnd.byte then
        if depth = 0 then some position
        else closeIn (depth - 1) (position + 1) rest
      else closeIn depth (position + 1) rest

def closeFrom (code : Array UInt8) : (remaining depth position : Nat) → Option Nat
  | 0, _, _ => none
  | remaining + 1, depth, position =>
      match code[position]? with
      | none => none
      | some b =>
          if b = Instruction.loopStart.byte then
            closeFrom code remaining (depth + 1) (position + 1)
          else if b = Instruction.loopEnd.byte then
            if depth = 0 then some position
            else closeFrom code remaining (depth - 1) (position + 1)
          else closeFrom code remaining depth (position + 1)

theorem closeFrom_eq_closeIn (code : Array UInt8) {remaining : Nat} (depth position : Nat)
    (h : code.size ≤ position + remaining) :
    closeFrom code remaining depth position = closeIn depth position (code.toList.drop position) := by
  induction remaining generalizing depth position with
  | zero =>
      rw [List.drop_eq_nil_of_le (by simpa using h)]
      rfl
  | succ remaining ih =>
      unfold closeFrom
      by_cases hp : position < code.size
      · have ih' : ∀ d, closeFrom code remaining d (position + 1) =
            closeIn d (position + 1) (code.toList.drop (position + 1)) :=
          fun d => ih d (position + 1) (by omega)
        rw [List.drop_eq_getElem_cons (by simpa using hp)]
        simp only [Array.getElem?_eq_getElem hp, ih', closeIn, Array.getElem_toList]
      · rw [List.drop_eq_nil_of_le (by rw [Array.length_toList]; omega),
          Array.getElem?_eq_none (by omega)]
        rfl

/-- The position of the loop start that opens the loop holding `position`, found by scanning
towards the first byte over `depth` closed loops. -/
def openBefore (code : Array UInt8) : (depth position : Nat) → Option Nat
  | _, 0 => none
  | depth, position + 1 =>
      match code[position]? with
      | none => none
      | some b =>
          if b = Instruction.loopEnd.byte then openBefore code (depth + 1) position
          else if b = Instruction.loopStart.byte then
            if depth = 0 then some position
            else openBefore code (depth - 1) position
          else openBefore code depth position

def matchingClose (p : Program) (start : Nat) : Option Nat :=
  closeFrom p.code (p.size - (start + 1)) 0 (start + 1)

theorem matchingClose_eq (p : Program) (start : Nat) :
    p.matchingClose start = closeIn 0 (start + 1) (p.toList.drop (start + 1)) :=
  closeFrom_eq_closeIn p.code 0 (start + 1) (by unfold size; omega)

def matchingOpen (p : Program) (stop : Nat) : Option Nat :=
  openBefore p.code 0 stop

end TapeLang.Program
