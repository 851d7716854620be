import Mathlib.Data.List.Induction
import TapeLang.Program.Balance
import TapeLang.Program.Pairing

namespace TapeLang

def IsAtom (b : UInt8) : Prop :=
  b ≠ Instruction.loopStart.byte ∧ b ≠ Instruction.loopEnd.byte

instance (b : UInt8) : Decidable (IsAtom b) :=
  inferInstanceAs (Decidable (_ ∧ _))

theorem boundary_or_atom (b : UInt8) :
    b = Instruction.loopStart.byte ∨ b = Instruction.loopEnd.byte ∨ IsAtom b := by
  unfold IsAtom
  by_cases hs : b = Instruction.loopStart.byte
  · exact .inl hs
  · by_cases he : b = Instruction.loopEnd.byte
    · exact .inr (.inl he)
    · exact .inr (.inr ⟨hs, he⟩)

@[simp]
theorem loopEnd_ne_loopStart : Instruction.loopEnd.byte ≠ Instruction.loopStart.byte := by
  decide

@[simp]
theorem loopStart_ne_loopEnd : Instruction.loopStart.byte ≠ Instruction.loopEnd.byte := by
  decide

theorem isAtom_of_not_isInstruction {b : UInt8} (h : isInstruction b = false) : IsAtom b := by
  constructor
  · rintro rfl
    simp at h
  · rintro rfl
    simp at h

namespace Program

variable (depth position : Nat) (rest : List UInt8)

@[simp]
theorem openLoops_start :
    openLoops depth position (Instruction.loopStart.byte :: rest) =
      openLoops (depth + 1) (position + 1) rest := by
  simp [openLoops]

@[simp]
theorem openLoops_end_zero :
    openLoops 0 position (Instruction.loopEnd.byte :: rest) = .error position := by
  simp [openLoops]

@[simp]
theorem openLoops_end_succ :
    openLoops (depth + 1) position (Instruction.loopEnd.byte :: rest) =
      openLoops depth (position + 1) rest := by
  simp [openLoops]

theorem openLoops_atom {b : UInt8} (h : IsAtom b) :
    openLoops depth position (b :: rest) = openLoops depth (position + 1) rest := by
  simp [openLoops, h.1, h.2]

@[simp]
theorem closeIn_start :
    closeIn depth position (Instruction.loopStart.byte :: rest) =
      closeIn (depth + 1) (position + 1) rest := by
  simp [closeIn]

@[simp]
theorem closeIn_end_zero :
    closeIn 0 position (Instruction.loopEnd.byte :: rest) = some position := by
  simp [closeIn]

@[simp]
theorem closeIn_end_succ :
    closeIn (depth + 1) position (Instruction.loopEnd.byte :: rest) =
      closeIn depth (position + 1) rest := by
  simp [closeIn]

theorem closeIn_atom {b : UInt8} (h : IsAtom b) :
    closeIn depth position (b :: rest) = closeIn depth (position + 1) rest := by
  simp [closeIn, h.1, h.2]

theorem closeIn_eq_openLoops (bytes : List UInt8) :
    closeIn depth position bytes =
      match openLoops depth position bytes with
      | .error stop => some stop
      | .ok _ => none := by
  induction bytes generalizing depth position with
  | nil => rfl
  | cons b rest ih =>
      rcases boundary_or_atom b with rfl | rfl | h
      · simp [ih]
      · cases depth with
        | zero => simp
        | succ depth => simp [ih]
      · simp [closeIn_atom _ _ _ h, openLoops_atom _ _ _ h, ih]

theorem getElem?_of_closeIn {depth position stop : Nat} {bytes : List UInt8}
    (h : closeIn depth position bytes = some stop) :
    ∃ k, stop = position + k ∧ bytes[k]? = some Instruction.loopEnd.byte := by
  induction bytes generalizing depth position with
  | nil => cases h
  | cons b rest ih =>
      have later {depth' : Nat} (h : closeIn depth' (position + 1) rest = some stop) :
          ∃ k, stop = position + k ∧ (b :: rest)[k]? = some Instruction.loopEnd.byte := by
        obtain ⟨k, rfl, hk⟩ := ih h
        exact ⟨k + 1, by omega, by rwa [List.getElem?_cons_succ]⟩
      rcases boundary_or_atom b with rfl | rfl | ha
      · exact later (by simpa using h)
      · cases depth with
        | zero =>
            rw [closeIn_end_zero] at h
            exact ⟨0, (Option.some.inj h).symm, rfl⟩
        | succ depth => exact later (by simpa using h)
      · exact later (by rwa [closeIn_atom _ _ _ ha] at h)

def surplus : List UInt8 → Nat
  | [] => 0
  | b :: rest =>
      if b = Instruction.loopStart.byte then surplus rest - 1
      else if b = Instruction.loopEnd.byte then surplus rest + 1
      else surplus rest

def unclosed : List UInt8 → Nat
  | [] => 0
  | b :: rest =>
      if b = Instruction.loopStart.byte ∧ surplus rest = 0 then unclosed rest + 1
      else unclosed rest

@[simp]
theorem surplus_nil : surplus [] = 0 :=
  rfl

@[simp]
theorem unclosed_nil : unclosed [] = 0 :=
  rfl

@[simp]
theorem surplus_start : surplus (Instruction.loopStart.byte :: rest) = surplus rest - 1 := by
  simp [surplus]

@[simp]
theorem surplus_end : surplus (Instruction.loopEnd.byte :: rest) = surplus rest + 1 := by
  simp [surplus]

theorem surplus_atom {b : UInt8} (h : IsAtom b) : surplus (b :: rest) = surplus rest := by
  simp [surplus, h.1, h.2]

theorem unclosed_start :
    unclosed (Instruction.loopStart.byte :: rest) =
      if surplus rest = 0 then unclosed rest + 1 else unclosed rest := by
  simp [unclosed]

@[simp]
theorem unclosed_end : unclosed (Instruction.loopEnd.byte :: rest) = unclosed rest := by
  simp [unclosed]

theorem unclosed_atom {b : UInt8} (h : IsAtom b) : unclosed (b :: rest) = unclosed rest := by
  simp [unclosed, h.1]

theorem openLoops_eq_ok_iff {depth position open' : Nat} {bytes : List UInt8} :
    openLoops depth position bytes = .ok open' ↔
      surplus bytes ≤ depth ∧ open' = depth - surplus bytes + unclosed bytes := by
  induction bytes generalizing depth position with
  | nil => simp [openLoops, eq_comm]
  | cons b rest ih =>
      rcases boundary_or_atom b with rfl | rfl | h
      · rw [openLoops_start, ih, surplus_start, unclosed_start]
        split <;> omega
      · cases depth with
        | zero => simp
        | succ depth =>
            rw [openLoops_end_succ, ih, surplus_end, unclosed_end]
            omega
      · rw [openLoops_atom _ _ _ h, ih, surplus_atom _ h, unclosed_atom _ h]

theorem surplus_append (a b : List UInt8) :
    surplus (a ++ b) = surplus a + (surplus b - unclosed a) ∧
      unclosed (a ++ b) = unclosed b + (unclosed a - surplus b) := by
  induction a with
  | nil => simp
  | cons x a ih =>
      obtain ⟨hs, hu⟩ := ih
      rw [List.cons_append]
      rcases boundary_or_atom x with rfl | rfl | h
      · rw [surplus_start, surplus_start, unclosed_start, unclosed_start, hs, hu]
        constructor
        · split <;> omega
        · split <;> split <;> omega
      · rw [surplus_end, surplus_end, unclosed_end, unclosed_end, hs, hu]
        omega
      · rw [surplus_atom _ h, surplus_atom _ h, unclosed_atom _ h, unclosed_atom _ h, hs, hu]
        exact ⟨rfl, rfl⟩

example : surplus ([93, 91] ++ [91, 93]) = 1 ∧ unclosed ([93, 91] ++ [91, 93]) = 1 := by
  decide

theorem count_add_surplus (bytes : List UInt8) :
    bytes.count Instruction.loopStart.byte + surplus bytes =
      bytes.count Instruction.loopEnd.byte + unclosed bytes := by
  induction bytes with
  | nil => rfl
  | cons b rest ih =>
      rcases boundary_or_atom b with rfl | rfl | h
      · rw [surplus_start, unclosed_start, List.count_cons_self,
          List.count_cons_of_ne loopStart_ne_loopEnd]
        split <;> omega
      · rw [surplus_end, unclosed_end, List.count_cons_self,
          List.count_cons_of_ne loopEnd_ne_loopStart]
        omega
      · rw [surplus_atom _ h, unclosed_atom _ h, List.count_cons_of_ne h.1,
          List.count_cons_of_ne h.2, ih]

theorem openLoops_concat {b : UInt8} (h : IsAtom b) (bytes : List UInt8) :
    openLoops depth position (bytes ++ [b]) = openLoops depth position bytes := by
  rw [openLoops_append]
  cases openLoops depth position bytes with
  | error stop => rfl
  | ok count => exact openLoops_atom _ _ _ h

theorem surplus_gt_of_error {depth position stop : Nat} {bytes : List UInt8}
    (h : openLoops depth position bytes = .error stop) : depth < surplus bytes := by
  rw [← Nat.not_le]
  intro hle
  have hok : openLoops depth position bytes = .ok _ := openLoops_eq_ok_iff.2 ⟨hle, rfl⟩
  rw [h] at hok
  cases hok

theorem openLoops_eq_error_iff {depth position stop : Nat} {bytes : List UInt8} :
    openLoops depth position bytes = .error stop ↔
      ∃ before after, bytes = before ++ Instruction.loopEnd.byte :: after ∧
        openLoops depth position before = .ok 0 ∧ stop = position + before.length := by
  constructor
  · intro h
    induction bytes generalizing depth position with
    | nil => cases h
    | cons b rest ih =>
        have later {depth' : Nat} (hb : ∀ bytes, openLoops depth position (b :: bytes) =
            openLoops depth' (position + 1) bytes) :
            ∃ before after, b :: rest = before ++ Instruction.loopEnd.byte :: after ∧
              openLoops depth position before = .ok 0 ∧ stop = position + before.length := by
          rw [hb] at h
          obtain ⟨before, after, rfl, ho, rfl⟩ := ih h
          exact ⟨b :: before, after, rfl, (hb before).trans ho, by rw [List.length_cons]; omega⟩
        rcases boundary_or_atom b with rfl | rfl | ha
        · exact later (openLoops_start depth position)
        · cases depth with
          | zero =>
              rw [openLoops_end_zero] at h
              exact ⟨[], rest, rfl, rfl, (Except.error.inj h).symm⟩
          | succ depth => exact later (openLoops_end_succ depth position)
        · exact later fun bytes => openLoops_atom depth position bytes ha
  · rintro ⟨before, after, rfl, ho, rfl⟩
    rw [openLoops_append, ho]
    exact openLoops_end_zero (position + before.length) after

theorem closeIn_eq_none_iff {depth position : Nat} {bytes : List UInt8} :
    closeIn depth position bytes = none ↔ surplus bytes ≤ depth := by
  rw [closeIn_eq_openLoops]
  cases h : openLoops depth position bytes with
  | ok open' => simpa using (openLoops_eq_ok_iff.1 h).1
  | error stop => simpa using surplus_gt_of_error h

/-- The scan of `openBefore` over the bytes before a position, the nearest one first. -/
def openIn : (depth : Nat) → List UInt8 → Option Nat
  | _, [] => none
  | depth, b :: rest =>
      if b = Instruction.loopEnd.byte then openIn (depth + 1) rest
      else if b = Instruction.loopStart.byte then
        if depth = 0 then some rest.length
        else openIn (depth - 1) rest
      else openIn depth rest

@[simp]
theorem openIn_end : openIn depth (Instruction.loopEnd.byte :: rest) = openIn (depth + 1) rest := by
  simp [openIn]

@[simp]
theorem openIn_start_zero : openIn 0 (Instruction.loopStart.byte :: rest) = some rest.length := by
  simp [openIn]

@[simp]
theorem openIn_start_succ :
    openIn (depth + 1) (Instruction.loopStart.byte :: rest) = openIn depth rest := by
  simp [openIn]

theorem openIn_atom {b : UInt8} (h : IsAtom b) : openIn depth (b :: rest) = openIn depth rest := by
  simp [openIn, h.1, h.2]

theorem openBefore_eq_openIn (code : Array UInt8) {depth position : Nat}
    (h : position ≤ code.size) :
    openBefore code depth position = openIn depth (code.toList.take position).reverse := by
  induction position generalizing depth with
  | zero => rfl
  | succ position ih =>
      have hp : position < code.toList.length := by rw [Array.length_toList]; omega
      rw [List.take_succ_eq_append_getElem hp, List.reverse_concat]
      unfold openBefore
      have hl : (code.toList.take position).reverse.length = position := by simp; omega
      simp only [Array.getElem?_eq_getElem (by omega : position < code.size), openIn,
        Array.getElem_toList, ih (by omega), hl]

theorem matchingOpen_eq (p : Program) {stop : Nat} (h : stop ≤ p.size) :
    p.matchingOpen stop = openIn 0 (p.toList.take stop).reverse :=
  openBefore_eq_openIn p.code h

theorem getElem?_of_openIn {depth start : Nat} {bytes : List UInt8}
    (h : openIn depth bytes.reverse = some start) :
    bytes[start]? = some Instruction.loopStart.byte := by
  induction bytes using List.reverseRecOn generalizing depth with
  | nil => cases h
  | append_singleton bytes b ih =>
      have earlier {depth' : Nat} (h : openIn depth' bytes.reverse = some start) :
          (bytes ++ [b])[start]? = some Instruction.loopStart.byte := by
        have hk := ih h
        rwa [List.getElem?_append_left (List.getElem?_eq_some_iff.1 hk).1]
      rw [List.reverse_concat] at h
      rcases boundary_or_atom b with rfl | rfl | ha
      · cases depth with
        | zero =>
            rw [openIn_start_zero, List.length_reverse] at h
            rw [← Option.some.inj h, List.getElem?_concat_length]
        | succ depth => exact earlier (by simpa using h)
      · exact earlier (by simpa using h)
      · exact earlier (by rwa [openIn_atom _ _ ha] at h)

theorem byte_of_matchingClose {p : Program} {start stop : Nat}
    (h : p.matchingClose start = some stop) :
    p.code[stop]? = some Instruction.loopEnd.byte := by
  rw [matchingClose_eq] at h
  obtain ⟨k, rfl, hk⟩ := getElem?_of_closeIn h
  rw [← hk, List.getElem?_drop, toList, Array.getElem?_toList]

theorem byte_of_matchingOpen {p : Program} {start stop : Nat} (hs : stop ≤ p.size)
    (h : p.matchingOpen stop = some start) :
    p.code[start]? = some Instruction.loopStart.byte := by
  rw [matchingOpen_eq p hs] at h
  have hk := getElem?_of_openIn h
  have hlt := (List.getElem?_eq_some_iff.1 hk).1
  rwa [List.getElem?_take_of_lt (Nat.lt_of_lt_of_le hlt (List.length_take_le _ _)), toList,
    Array.getElem?_toList] at hk

theorem lt_of_matchingClose {p : Program} {start stop : Nat}
    (h : p.matchingClose start = some stop) : start < stop := by
  rw [matchingClose_eq] at h
  obtain ⟨k, rfl, -⟩ := getElem?_of_closeIn h
  omega

theorem lt_of_matchingOpen {p : Program} {start stop : Nat} (hs : stop ≤ p.size)
    (h : p.matchingOpen stop = some start) : start < stop := by
  rw [matchingOpen_eq p hs] at h
  have hlt := (List.getElem?_eq_some_iff.1 (getElem?_of_openIn h)).1
  exact Nat.lt_of_lt_of_le hlt (List.length_take_le _ _)

theorem openIn_eq_none_iff {depth : Nat} {bytes : List UInt8} :
    openIn depth bytes.reverse = none ↔ unclosed bytes ≤ depth := by
  induction bytes using List.reverseRecOn generalizing depth with
  | nil => simp [openIn]
  | append_singleton bytes b ih =>
      rw [List.reverse_concat, (surplus_append bytes [b]).2]
      rcases boundary_or_atom b with rfl | rfl | h
      · rw [unclosed_start, surplus_start]
        cases depth with
        | zero => simp
        | succ depth => simp [ih]; omega
      · rw [openIn_end, ih, unclosed_end, surplus_end]
        simp
      · rw [openIn_atom _ _ h, ih, unclosed_atom _ h, surplus_atom _ h]
        simp

end Program

end TapeLang
