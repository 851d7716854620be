import TapeLang.Proofs.Program.Resolution

namespace TapeLang

abbrev Atom : Type :=
  { b : UInt8 // IsAtom b }

inductive Tree where
  | done
  | atom (a : Atom) (rest : Tree)
  | loop (body rest : Tree)
  deriving DecidableEq

namespace Tree

def flatten : Tree → List UInt8
  | done => []
  | atom a rest => a.val :: rest.flatten
  | loop body rest =>
      Instruction.loopStart.byte :: (body.flatten ++ Instruction.loopEnd.byte :: rest.flatten)

def size (t : Tree) : Nat :=
  t.flatten.length

@[simp]
theorem size_atom (a : Atom) (rest : Tree) : (atom a rest).size = rest.size + 1 :=
  rfl

@[simp]
theorem size_loop (body rest : Tree) : (loop body rest).size = body.size + rest.size + 2 := by
  simp only [size, flatten, List.length_cons, List.length_append]
  omega

theorem add_size_atom (position : Nat) (a : Atom) (rest : Tree) :
    position + (atom a rest).size = position + 1 + rest.size := by
  rw [size_atom]
  omega

theorem add_size_loop (position : Nat) (body rest : Tree) :
    position + (loop body rest).size = position + body.size + 2 + rest.size := by
  rw [size_loop]
  omega

open Program

theorem closeIn_flatten_append (t : Tree) (depth position : Nat) (bytes : List UInt8) :
    closeIn depth position (t.flatten ++ bytes) = closeIn depth (position + t.size) bytes := by
  induction t generalizing depth position bytes with
  | done => rfl
  | atom a rest ih =>
      rw [flatten, List.cons_append, closeIn_atom _ _ _ a.property, ih, size_atom]
      congr 1
      omega
  | loop body rest ihb ihr =>
      rw [flatten, List.cons_append, List.append_assoc, List.cons_append, closeIn_start, ihb,
        closeIn_end_succ, ihr, size_loop]
      congr 1
      omega

theorem openIn_flatten_append (t : Tree) (depth : Nat) (bytes : List UInt8) :
    openIn depth (t.flatten.reverse ++ bytes) = openIn depth bytes := by
  induction t generalizing depth bytes with
  | done => rfl
  | atom a rest ih =>
      rw [flatten, List.reverse_cons, List.append_assoc, ih, List.singleton_append,
        openIn_atom _ _ a.property]
  | loop body rest ihb ihr =>
      rw [flatten, List.reverse_cons, List.reverse_append, List.reverse_cons]
      simp only [List.append_assoc, List.singleton_append]
      rw [ihr, List.cons_append, openIn_end, ihb, openIn_start_succ]

/-- The tree before the first surplus loop end and the trees between those that follow, unless a
loop start is left open. -/
def forest : List UInt8 → Option (Tree × List Tree)
  | [] => some (done, [])
  | b :: bytes =>
      if hs : b = Instruction.loopStart.byte then
        match forest bytes with
        | some (body, rest :: more) => some (loop body rest, more)
        | _ => none
      else if he : b = Instruction.loopEnd.byte then
        (forest bytes).map fun (t, more) => (done, t :: more)
      else (forest bytes).map fun (t, more) => (atom ⟨b, hs, he⟩ t, more)

variable {bytes : List UInt8}

@[simp]
theorem forest_start :
    forest (Instruction.loopStart.byte :: bytes) =
      match forest bytes with
      | some (body, rest :: more) => some (loop body rest, more)
      | _ => none := by
  simp [forest]

@[simp]
theorem forest_end :
    forest (Instruction.loopEnd.byte :: bytes) =
      (forest bytes).map fun (t, more) => (done, t :: more) := by
  simp [forest]

@[simp]
theorem forest_atom (a : Atom) :
    forest (a.val :: bytes) = (forest bytes).map fun (t, more) => (atom a t, more) := by
  simp [forest, a.property.1, a.property.2]

theorem forest_flatten_append {more : List Tree} (t : Tree)
    (h : forest bytes = some (done, more)) : forest (t.flatten ++ bytes) = some (t, more) := by
  induction t generalizing bytes more with
  | done => exact h
  | atom a rest ih => simp [flatten, ih h]
  | loop body rest ihb ihr =>
      have hend : forest (Instruction.loopEnd.byte :: (rest.flatten ++ bytes)) =
          some (done, rest :: more) := by
        simp [ihr h]
      simp [flatten, ihb hend]

theorem forest_flatten (t : Tree) : forest t.flatten = some (t, []) := by
  have h := forest_flatten_append t (show forest [] = some (done, []) from rfl)
  rwa [List.append_nil] at h

theorem flatten_injective {t u : Tree} (h : t.flatten = u.flatten) : t = u := by
  have hu := forest_flatten u
  rw [← h, forest_flatten t] at hu
  exact congrArg Prod.fst (Option.some.inj hu)

def joined (t : Tree) (more : List Tree) : List UInt8 :=
  t.flatten ++ more.flatMap fun u => Instruction.loopEnd.byte :: u.flatten

theorem exists_forest (bytes : List UInt8) (h : unclosed bytes = 0) :
    ∃ t more, forest bytes = some (t, more) ∧ more.length = surplus bytes ∧
      joined t more = bytes := by
  induction bytes with
  | nil => exact ⟨done, [], rfl, rfl, rfl⟩
  | cons b bytes ih =>
      rcases boundary_or_atom b with rfl | rfl | ha
      · rw [unclosed_start] at h
        split at h
        · cases h
        · rename_i hs
          obtain ⟨body, more, hf, hl, hj⟩ := ih h
          cases more with
          | nil => exact absurd hl.symm hs
          | cons rest more =>
              refine ⟨loop body rest, more, by simp [hf], ?_, ?_⟩
              · rw [surplus_start, ← hl, List.length_cons, Nat.add_sub_cancel]
              · simp [joined, flatten, ← hj]
      · obtain ⟨t, more, hf, hl, hj⟩ := ih (by simpa using h)
        refine ⟨done, t :: more, by simp [hf], ?_, ?_⟩
        · rw [List.length_cons, hl, surplus_end]
        · simp [joined, flatten, ← hj]
      · obtain ⟨t, more, hf, hl, hj⟩ := ih (by rwa [unclosed_atom _ ha] at h)
        refine ⟨atom ⟨b, ha⟩ t, more, ?_, ?_, ?_⟩
        · exact (forest_atom ⟨b, ha⟩).trans (by simp [hf])
        · rw [hl, surplus_atom _ ha]
        · simp [joined, flatten, ← hj]

theorem exists_flatten_of_strict {p : Program} (h : p.validate .strict = .ok ()) :
    ∃ t : Tree, t.flatten = p.toList := by
  obtain ⟨hs, hu⟩ := validate_strict_iff.1 h
  obtain ⟨t, more, -, hl, hj⟩ := exists_forest p.toList hu
  rw [hs] at hl
  obtain rfl := List.length_eq_zero_iff.1 hl
  exact ⟨t, by simpa [joined] using hj⟩

end Tree

def Program.Contains (p : Program) (position : Nat) (t : Tree) : Prop :=
  ∃ before after, p.toList = before ++ (t.flatten ++ after) ∧ before.length = position

namespace Program.Contains

variable {p : Program} {position : Nat} {body rest : Tree}

theorem whole {t : Tree} (h : t.flatten = p.toList) : p.Contains 0 t :=
  ⟨[], [], by simp [h], rfl⟩

theorem byte_atom {a : Atom} (h : p.Contains position (.atom a rest)) :
    p.code[position]? = some a.val := by
  obtain ⟨before, after, hp, rfl⟩ := h
  rw [← Array.getElem?_toList, ← toList, hp]
  simp [Tree.flatten]

theorem rest_atom {a : Atom} (h : p.Contains position (.atom a rest)) :
    p.Contains (position + 1) rest := by
  obtain ⟨before, after, hp, rfl⟩ := h
  exact ⟨before ++ [a.val], after, by simp [hp, Tree.flatten], by simp⟩

theorem byte_start (h : p.Contains position (.loop body rest)) :
    p.code[position]? = some Instruction.loopStart.byte := by
  obtain ⟨before, after, hp, rfl⟩ := h
  rw [← Array.getElem?_toList, ← toList, hp]
  simp [Tree.flatten]

theorem body_loop (h : p.Contains position (.loop body rest)) :
    p.Contains (position + 1) body := by
  obtain ⟨before, after, hp, rfl⟩ := h
  exact ⟨before ++ [Instruction.loopStart.byte],
    Instruction.loopEnd.byte :: (rest.flatten ++ after), by simp [hp, Tree.flatten], by simp⟩

theorem cut_end (h : p.Contains position (.loop body rest)) :
    ∃ before after, p.toList = (before ++ Instruction.loopStart.byte :: body.flatten) ++
        Instruction.loopEnd.byte :: after ∧
      before.length = position ∧
      (before ++ Instruction.loopStart.byte :: body.flatten).length =
        position + 1 + body.size := by
  obtain ⟨before, after, hp, rfl⟩ := h
  refine ⟨before, rest.flatten ++ after, by simp [hp, Tree.flatten], rfl, ?_⟩
  rw [List.length_append, List.length_cons, Tree.size]
  omega

theorem byte_end (h : p.Contains position (.loop body rest)) :
    p.code[position + 1 + body.size]? = some Instruction.loopEnd.byte := by
  obtain ⟨before, after, hp, -, hl⟩ := h.cut_end
  rw [← Array.getElem?_toList, ← toList, hp, ← hl]
  simp

theorem rest_loop (h : p.Contains position (.loop body rest)) :
    p.Contains (position + body.size + 2) rest := by
  obtain ⟨before, after, hp, rfl⟩ := h
  refine ⟨before ++ Instruction.loopStart.byte :: (body.flatten ++ [Instruction.loopEnd.byte]),
    after, by simp [hp, Tree.flatten], ?_⟩
  simp only [List.length_append, List.length_cons, List.length_nil, Tree.size]
  omega

theorem matchingClose (h : p.Contains position (.loop body rest)) :
    p.matchingClose position = some (position + 1 + body.size) := by
  obtain ⟨before, after, hp, rfl⟩ := h
  have hd : p.toList.drop (before.length + 1) =
      body.flatten ++ Instruction.loopEnd.byte :: (rest.flatten ++ after) := by
    rw [hp, ← List.drop_drop, List.drop_left]
    simp [Tree.flatten]
  rw [matchingClose_eq, hd, Tree.closeIn_flatten_append, closeIn_end_zero]

theorem matchingOpen (h : p.Contains position (.loop body rest)) :
    p.matchingOpen (position + 1 + body.size) = some position := by
  have hlt := (Array.getElem?_eq_some_iff.1 h.byte_end).1
  obtain ⟨before, after, hp, rfl, hl⟩ := h.cut_end
  rw [matchingOpen_eq p (Nat.le_of_lt hlt), hp, ← hl, List.take_left, List.reverse_append,
    List.reverse_cons, List.append_assoc, Tree.openIn_flatten_append, List.singleton_append,
    openIn_start_zero, List.length_reverse]

end Program.Contains

end TapeLang
