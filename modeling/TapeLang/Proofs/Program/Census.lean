import Mathlib.Algebra.BigOperators.Group.List.Basic
import TapeLang.Proofs.Program.Depth
import TapeLang.Proofs.Program.Rank

namespace TapeLang.Program

theorem sum_kinds (b : UInt8) :
    (Instruction.all.map fun i => if b == i.byte then 1 else 0).sum =
      if isInstruction b then 1 else 0 := by
  cases h : Instruction.ofByte? b with
  | none =>
      have hne (i : Instruction) : (b == i.byte) = false := by
        rw [beq_eq_false_iff_ne]
        rintro rfl
        simp at h
      simp [hne, isInstruction, h]
  | some i =>
      obtain rfl := Instruction.ofByte?_eq_some_iff.1 h
      cases i <;> rfl

theorem sum_counts (bytes : List UInt8) :
    (Instruction.all.map fun i => bytes.count i.byte).sum = bytes.countP isInstruction := by
  induction bytes with
  | nil => rfl
  | cons b rest ih =>
      simp only [List.count_cons, List.countP_cons, List.sum_map_add, ih, sum_kinds]

variable {p q : Program}

theorem sum_histogram (p : Program) : p.histogram.sum = p.instructionCount :=
  sum_counts p.toList

theorem occurrences_strip (p : Program) (i : Instruction) :
    p.strip.occurrences i = p.occurrences i := by
  rw [occurrences, toList_strip, List.count_filter (isInstruction_byte i), occurrences]

theorem histogram_of_strip (h : q.strip = p.strip) : q.histogram = p.histogram := by
  apply List.map_congr_left
  intro i _
  rw [← occurrences_strip, h, occurrences_strip]

theorem deepest_filter (depth best : Nat) (bytes : List UInt8) :
    deepest depth best (bytes.filter isInstruction) = deepest depth best bytes := by
  induction bytes generalizing depth best with
  | nil => rfl
  | cons b rest ih =>
      by_cases hi : isInstruction b = true
      · rw [List.filter_cons_of_pos hi]
        rcases boundary_or_atom b with rfl | rfl | ha
        · rw [deepest_start, deepest_start, ih]
        · rw [deepest_end, deepest_end, ih]
        · rw [deepest_atom _ _ _ ha, deepest_atom _ _ _ ha, ih]
      · have ha := isAtom_of_not_isInstruction (Bool.not_eq_true _ ▸ hi)
        rw [List.filter_cons_of_neg hi, deepest_atom _ _ _ ha, ih]

theorem loopDepth_of_strip (h : q.strip = p.strip) : q.loopDepth = p.loopDepth := by
  rw [loopDepth, ← deepest_filter, ← toList_strip, h, toList_strip, deepest_filter, loopDepth]

theorem commentary_of_strip (h : q.strip = p.strip) :
    q.commentary = q.size - p.strip.size := by
  have hcount := q.instructionCount_add_commentary
  rw [← size_strip, h] at hcount
  omega

theorem loopDepth_le_occurrences (p : Program) : p.loopDepth ≤ p.occurrences .loopStart := by
  obtain ⟨i, j, -, -, he⟩ := p.isGreatest_segmentExcesses.1
  have hsub : ((p.toList.take j).drop i).Sublist p.toList :=
    (List.drop_sublist i _).trans (List.take_sublist j _)
  have hle := hsub.count_le Instruction.loopStart.byte
  unfold excess at he
  unfold occurrences
  omega

theorem occurrences_of_strict (h : p.validate .strict = .ok ()) :
    p.occurrences .loopStart = p.occurrences .loopEnd := by
  obtain ⟨hs, hu⟩ := validate_strict_iff.1 h
  have hcount := count_add_surplus p.toList
  unfold occurrences
  omega

end TapeLang.Program
