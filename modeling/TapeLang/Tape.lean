namespace TapeLang

@[ext]
structure Tape where
  cells : Array UInt8
  pointer : Nat
  pointer_lt : pointer < cells.size
  deriving DecidableEq, Repr

/-- A refused move, with the index that the pointer would have reached. -/
structure OutOfBounds where
  attempted : Int
  deriving DecidableEq, Repr

namespace Tape

def defaultLength : Nat :=
  30000

/-- A tape has at least one cell, so a length of zero counts as one. -/
def ofLength (length : Nat) : Tape :=
  ⟨Array.replicate (max 1 length) 0, 0, by rw [Array.size_replicate]; omega⟩

def size (t : Tape) : Nat :=
  t.cells.size

theorem size_pos (t : Tape) : 0 < t.size :=
  Nat.lt_of_le_of_lt (Nat.zero_le _) t.pointer_lt

@[simp]
theorem size_ofLength (length : Nat) : (ofLength length).size = max 1 length := by
  simp [ofLength, size]

@[simp]
theorem pointer_ofLength (length : Nat) : (ofLength length).pointer = 0 :=
  rfl

def current (t : Tape) : UInt8 :=
  have := t.pointer_lt
  t.cells[t.pointer]

theorem getElem?_pointer (t : Tape) : t.cells[t.pointer]? = some t.current :=
  Array.getElem?_eq_getElem t.pointer_lt

def setCurrent (t : Tape) (value : UInt8) : Tape :=
  match t with
  | ⟨cells, pointer, h⟩ => ⟨cells.set pointer value h, pointer, by simpa using h⟩

@[simp]
theorem pointer_setCurrent (t : Tape) (value : UInt8) : (t.setCurrent value).pointer = t.pointer :=
  rfl

@[simp]
theorem size_setCurrent (t : Tape) (value : UInt8) : (t.setCurrent value).size = t.size := by
  simp [setCurrent, size]

@[simp]
theorem current_setCurrent (t : Tape) (value : UInt8) : (t.setCurrent value).current = value := by
  simp [setCurrent, current]

theorem getElem?_setCurrent (t : Tape) (value : UInt8) (i : Nat) :
    (t.setCurrent value).cells[i]? = if i = t.pointer then some value else t.cells[i]? := by
  simp only [setCurrent, Array.getElem?_set, @eq_comm _ t.pointer i]

def increment (t : Tape) : Tape :=
  t.setCurrent (t.current + 1)

def decrement (t : Tape) : Tape :=
  t.setCurrent (t.current - 1)

def moveRight (t : Tape) : Except OutOfBounds Tape :=
  if h : t.pointer + 1 < t.cells.size then .ok ⟨t.cells, t.pointer + 1, h⟩
  else .error ⟨t.pointer + 1⟩

def moveLeft (t : Tape) : Except OutOfBounds Tape :=
  if t.pointer = 0 then .error ⟨-1⟩
  else .ok ⟨t.cells, t.pointer - 1, Nat.lt_of_le_of_lt (Nat.sub_le _ _) t.pointer_lt⟩

theorem moveRight_eq_error_iff {t : Tape} {e : OutOfBounds} :
    t.moveRight = .error e ↔ t.pointer + 1 = t.size ∧ e = ⟨(t.size : Int)⟩ := by
  have := t.pointer_lt
  unfold moveRight size
  split
  · simp only [reduceCtorEq, false_iff]; omega
  · have h : t.pointer + 1 = t.cells.size := by omega
    rw [← h]
    simp [eq_comm]

theorem moveLeft_eq_error_iff {t : Tape} {e : OutOfBounds} :
    t.moveLeft = .error e ↔ t.pointer = 0 ∧ e = ⟨-1⟩ := by
  unfold moveLeft
  split <;> simp [*, eq_comm]

end Tape

end TapeLang
