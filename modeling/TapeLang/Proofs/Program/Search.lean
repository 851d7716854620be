import TapeLang.Proofs.Program.Nesting

namespace TapeLang.Program

/-- A search for the other boundary of a loop, with `depth` loops still to be closed at
`position`. -/
structure Search where
  depth : Nat
  position : Nat

namespace Search

/-- A round traps where it would read outside the program or count below zero. -/
inductive Round where
  | next (s : Search)
  | ends (found : Option Nat)
  | traps

def move (s : Search) (deeper shallower : Instruction) (position : Nat) (b : UInt8) : Round :=
  if b = deeper.byte then .next ⟨s.depth + 1, position⟩
  else if b = shallower.byte then
    if s.depth = 0 then .traps else .next ⟨s.depth - 1, position⟩
  else .next ⟨s.depth, position⟩

def forward (code : Array UInt8) (s : Search) : Round :=
  if s.depth = 0 then .ends (some s.position)
  else
    match code[s.position + 1]? with
    | none => .ends none
    | some b => s.move .loopStart .loopEnd (s.position + 1) b

def backward (code : Array UInt8) (s : Search) : Round :=
  if s.depth = 0 then .ends (some s.position)
  else if s.position = 0 then .ends none
  else
    match code[s.position - 1]? with
    | none => .traps
    | some b => s.move .loopEnd .loopStart (s.position - 1) b

inductive Ends (round : Search → Round) : Nat → Search → Option Nat → Prop
  | now {s : Search} {found : Option Nat} (h : round s = .ends found) : Ends round 0 s found
  | later {s s₁ : Search} {rounds : Nat} {found : Option Nat} (h : round s = .next s₁)
      (hs : Ends round rounds s₁ found) : Ends round (rounds + 1) s found

variable {code : Array UInt8} {depth position : Nat}

theorem forward_of_byte {b : UInt8} (hb : code[position + 1]? = some b) :
    forward code ⟨depth + 1, position⟩ =
      move ⟨depth + 1, position⟩ .loopStart .loopEnd (position + 1) b := by
  simp [forward, hb]

theorem backward_of_byte {b : UInt8} (hb : code[position]? = some b) :
    backward code ⟨depth + 1, position + 1⟩ =
      move ⟨depth + 1, position + 1⟩ .loopEnd .loopStart position b := by
  simp [backward, hb]

/-- The search counts the loop it comes from, the scan does not. -/
theorem ends_closeIn {bytes : List UInt8} (h : code.toList.drop (position + 1) = bytes)
    (depth : Nat) : ∃ rounds ≤ bytes.length,
      Ends (forward code) rounds ⟨depth + 1, position⟩ (closeIn depth (position + 1) bytes) := by
  induction bytes generalizing depth position with
  | nil =>
      have hnone : code[position + 1]? = none := by
        rw [← Array.getElem?_toList, ← List.head?_drop, h, List.head?_nil]
      exact ⟨0, Nat.le_refl 0, .now (by simp [forward, hnone, closeIn])⟩
  | cons b rest ih =>
      have hb : code[position + 1]? = some b := by
        rw [← Array.getElem?_toList, ← List.head?_drop, h, List.head?_cons]
      have hrest : code.toList.drop (position + 1 + 1) = rest := by
        rw [← List.drop_drop, h, List.drop_one, List.tail_cons]
      have onward {depth' : Nat}
          (hround : forward code ⟨depth + 1, position⟩ = .next ⟨depth' + 1, position + 1⟩) :
          ∃ rounds ≤ rest.length + 1, Ends (forward code) rounds ⟨depth + 1, position⟩
            (closeIn depth' (position + 1 + 1) rest) := by
        obtain ⟨rounds, hle, hs⟩ := ih hrest depth'
        exact ⟨rounds + 1, Nat.succ_le_succ hle, .later hround hs⟩
      rw [forward_of_byte hb] at onward
      rcases boundary_or_atom b with rfl | rfl | ha
      · rw [closeIn_start]
        exact onward (by simp [move])
      · cases depth with
        | zero =>
            rw [closeIn_end_zero]
            have hfound : forward code ⟨0, position + 1⟩ = .ends (some (position + 1)) := rfl
            refine ⟨1, Nat.succ_le_succ (Nat.zero_le _), .later ?_ (.now hfound)⟩
            rw [forward_of_byte hb]
            simp [move]
        | succ depth =>
            rw [closeIn_end_succ]
            exact onward (by simp [move])
      · rw [closeIn_atom _ _ _ ha]
        exact onward (by simp [move, ha.1, ha.2])

theorem ends_openIn {before after : List UInt8} (h : code.toList = before ++ after)
    (depth : Nat) : ∃ rounds ≤ before.length,
      Ends (backward code) rounds ⟨depth + 1, before.length⟩ (openIn depth before.reverse) := by
  induction before using List.reverseRecOn generalizing depth after with
  | nil => exact ⟨0, Nat.le_refl 0, .now (by simp [backward, openIn])⟩
  | append_singleton before b ih =>
      have hb : code[before.length]? = some b := by
        rw [← Array.getElem?_toList, h]
        simp
      rw [List.append_assoc] at h
      rw [List.length_append, List.length_singleton, List.reverse_concat]
      have onward {depth' : Nat}
          (hround : backward code ⟨depth + 1, before.length + 1⟩ =
            .next ⟨depth' + 1, before.length⟩) :
          ∃ rounds ≤ before.length + 1,
            Ends (backward code) rounds ⟨depth + 1, before.length + 1⟩
              (openIn depth' before.reverse) := by
        obtain ⟨rounds, hle, hs⟩ := ih h depth'
        exact ⟨rounds + 1, Nat.succ_le_succ hle, .later hround hs⟩
      rw [backward_of_byte hb] at onward
      rcases boundary_or_atom b with rfl | rfl | ha
      · cases depth with
        | zero =>
            rw [openIn_start_zero, List.length_reverse]
            have hfound : backward code ⟨0, before.length⟩ = .ends (some before.length) := rfl
            refine ⟨1, Nat.succ_le_succ (Nat.zero_le _), .later ?_ (.now hfound)⟩
            rw [backward_of_byte hb]
            simp [move]
        | succ depth =>
            rw [openIn_start_succ]
            exact onward (by simp [move])
      · rw [openIn_end]
        exact onward (by simp [move])
      · rw [openIn_atom _ _ ha]
        exact onward (by simp [move, ha.1, ha.2])

end Search

theorem ends_matchingClose (p : Program) (start : Nat) :
    ∃ rounds ≤ p.size - (start + 1),
      Search.Ends (Search.forward p.code) rounds ⟨1, start⟩ (p.matchingClose start) := by
  rw [matchingClose_eq]
  have hdrop : p.code.toList.drop (start + 1) = p.toList.drop (start + 1) := rfl
  obtain ⟨rounds, hle, hs⟩ := Search.ends_closeIn hdrop 0
  refine ⟨rounds, ?_, hs⟩
  rwa [List.length_drop, length_toList] at hle

theorem ends_matchingOpen {p : Program} {stop : Nat} (h : stop ≤ p.size) :
    ∃ rounds ≤ stop,
      Search.Ends (Search.backward p.code) rounds ⟨1, stop⟩ (p.matchingOpen stop) := by
  rw [matchingOpen_eq p h]
  have hcut : p.code.toList = p.toList.take stop ++ p.toList.drop stop :=
    (List.take_append_drop stop p.toList).symm
  have hs := Search.ends_openIn hcut 0
  rwa [List.length_take, length_toList, Nat.min_eq_left h] at hs

end TapeLang.Program
