import TapeLang.Program.Basic

namespace TapeLang.Program

def occurrences (p : Program) (i : Instruction) : Nat :=
  p.toList.count i.byte

def histogram (p : Program) : List Nat :=
  Instruction.all.map p.occurrences

@[simp]
theorem length_histogram (p : Program) : p.histogram.length = 8 := by
  simp [histogram, Instruction.all]

theorem getElem?_histogram (p : Program) (i : Instruction) :
    p.histogram[i.index]? = some (p.occurrences i) := by
  simp [histogram, Instruction.getElem?_all_index]

def histogramAt (p : Program) (i : Instruction) : Nat :=
  p.histogram[i.index]?.getD 0

theorem histogramAt_eq (p : Program) (i : Instruction) : p.histogramAt i = p.occurrences i := by
  rw [histogramAt, getElem?_histogram]
  rfl

def commentary (p : Program) : Nat :=
  p.toList.countP (fun b => !isInstruction b)

theorem instructionCount_add_commentary (p : Program) :
    p.instructionCount + p.commentary = p.size := by
  rw [← length_toList, instructionCount, commentary,
    List.length_eq_countP_add_countP isInstruction]
  simp

/-- A loop end at depth zero is ignored. -/
def deepest (depth best : Nat) : List UInt8 → Nat
  | [] => best
  | b :: rest =>
      if b = Instruction.loopStart.byte then deepest (depth + 1) (max best (depth + 1)) rest
      else if b = Instruction.loopEnd.byte then deepest (depth - 1) best rest
      else deepest depth best rest

def loopDepth (p : Program) : Nat :=
  deepest 0 0 p.toList

end TapeLang.Program
