import TapeLang.Instruction

namespace TapeLang

/-- A program is its source bytes exactly as read, commentary included. -/
structure Program where
  code : Array UInt8
  deriving DecidableEq, Repr, Inhabited

namespace Program

def ofList (bytes : List UInt8) : Program :=
  ⟨bytes.toArray⟩

def toList (p : Program) : List UInt8 :=
  p.code.toList

@[simp]
theorem toList_ofList (bytes : List UInt8) : (ofList bytes).toList = bytes := by
  simp [ofList, toList]

@[simp]
theorem ofList_toList (p : Program) : ofList p.toList = p := by
  simp [ofList, toList]

theorem ext_toList {p q : Program} (h : p.toList = q.toList) : p = q := by
  rw [← ofList_toList p, h, ofList_toList]

def size (p : Program) : Nat :=
  p.code.size

@[simp]
theorem length_toList (p : Program) : p.toList.length = p.size := by
  simp [toList, size]

theorem size_ofList (bytes : List UInt8) : (ofList bytes).size = bytes.length := by
  rw [← length_toList, toList_ofList]

def isEmpty (p : Program) : Bool :=
  p.code.isEmpty

def instructionCount (p : Program) : Nat :=
  p.toList.countP isInstruction

def strip (p : Program) : Program :=
  ⟨p.code.filter isInstruction⟩

@[simp]
theorem toList_strip (p : Program) : p.strip.toList = p.toList.filter isInstruction := by
  simp [strip, toList]

theorem size_strip (p : Program) : p.strip.size = p.instructionCount := by
  rw [← length_toList, toList_strip, instructionCount, List.countP_eq_length_filter]

theorem strip_strip (p : Program) : p.strip.strip = p.strip := by
  apply ext_toList
  simp

end Program

end TapeLang
