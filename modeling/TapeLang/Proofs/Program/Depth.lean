import Mathlib.Data.Int.SuccPred
import Mathlib.Order.SuccPred.Limit
import TapeLang.Program.Census
import TapeLang.Proofs.Program.Tree

namespace TapeLang

def Tree.depth : Tree → Nat
  | done => 0
  | atom _ rest => rest.depth
  | loop body rest => max (body.depth + 1) rest.depth

namespace Program

def excess (bytes : List UInt8) : Int :=
  bytes.count Instruction.loopStart.byte - bytes.count Instruction.loopEnd.byte

def segmentExcesses (p : Program) : Set Int :=
  { e | ∃ i j, i ≤ j ∧ j ≤ p.size ∧ e = excess ((p.toList.take j).drop i) }

def prefixExcesses (p : Program) : Set Int :=
  { e | ∃ j, j ≤ p.size ∧ e = excess (p.toList.take j) }

/-- A loop end at depth zero is ignored. -/
def depthAfter (depth : Nat) (bytes : List UInt8) : Nat :=
  depth - surplus bytes + unclosed bytes

theorem excess_eq (bytes : List UInt8) : excess bytes = unclosed bytes - surplus bytes := by
  have hcount := count_add_surplus bytes
  unfold excess
  omega

section

variable (depth best : Nat) (rest : List UInt8)

@[simp]
theorem deepest_start :
    deepest depth best (Instruction.loopStart.byte :: rest) =
      deepest (depth + 1) (max best (depth + 1)) rest := by
  simp [deepest]

@[simp]
theorem deepest_end :
    deepest depth best (Instruction.loopEnd.byte :: rest) = deepest (depth - 1) best rest := by
  simp [deepest]

theorem deepest_atom {b : UInt8} (h : IsAtom b) :
    deepest depth best (b :: rest) = deepest depth best rest := by
  simp [deepest, h.1, h.2]

@[simp]
theorem depthAfter_nil : depthAfter depth [] = depth :=
  rfl

theorem depthAfter_zero : depthAfter 0 rest = unclosed rest := by
  simp [depthAfter]

@[simp]
theorem depthAfter_start :
    depthAfter depth (Instruction.loopStart.byte :: rest) = depthAfter (depth + 1) rest := by
  unfold depthAfter
  rw [surplus_start, unclosed_start]
  split <;> omega

@[simp]
theorem depthAfter_end :
    depthAfter depth (Instruction.loopEnd.byte :: rest) = depthAfter (depth - 1) rest := by
  unfold depthAfter
  rw [surplus_end, unclosed_end]
  omega

theorem depthAfter_atom {b : UInt8} (h : IsAtom b) :
    depthAfter depth (b :: rest) = depthAfter depth rest := by
  rw [depthAfter, surplus_atom _ h, unclosed_atom _ h, depthAfter]

end

variable {p : Program} {bytes : List UInt8} {k : Int}

theorem unclosed_le_iff :
    (unclosed bytes : Int) ≤ k ↔ ∀ segment, segment <:+ bytes → excess segment ≤ k := by
  induction bytes with
  | nil => simp [excess]
  | cons b rest ih =>
      have hexcess := excess_eq (b :: rest)
      simp only [List.suffix_cons_iff, forall_eq_or_imp, ← ih, hexcess]
      rcases boundary_or_atom b with rfl | rfl | ha
      · rw [unclosed_start, surplus_start]
        split <;> omega
      · rw [unclosed_end, surplus_end]
        omega
      · rw [unclosed_atom _ ha, surplus_atom _ ha]
        omega

theorem deepest_concat {depth best : Nat} (h : depth ≤ best) (b : UInt8) :
    deepest depth best (bytes ++ [b]) =
      max (deepest depth best bytes) (depthAfter depth (bytes ++ [b])) := by
  induction bytes generalizing depth best with
  | nil =>
      rw [List.nil_append, deepest]
      rcases boundary_or_atom b with rfl | rfl | ha
      · rw [deepest_start, depthAfter_start, depthAfter_nil, deepest]
      · rw [deepest_end, depthAfter_end, depthAfter_nil, deepest]
        omega
      · rw [deepest_atom _ _ _ ha, depthAfter_atom _ _ ha, depthAfter_nil, deepest]
        omega
  | cons x bytes ih =>
      rw [List.cons_append]
      rcases boundary_or_atom x with rfl | rfl | ha
      · rw [deepest_start, deepest_start, depthAfter_start, ih (Nat.le_max_right _ _)]
      · rw [deepest_end, deepest_end, depthAfter_end, ih (by omega)]
      · rw [deepest_atom _ _ _ ha, deepest_atom _ _ _ ha, depthAfter_atom _ _ ha, ih h]

theorem deepest_le_iff :
    (deepest 0 0 bytes : Int) ≤ k ↔
      ∀ before, before <+: bytes → (unclosed before : Int) ≤ k := by
  induction bytes using List.reverseRecOn with
  | nil => simp [deepest]
  | append_singleton bytes b ih =>
      -- The whole text is the only prefix that the last byte adds.
      simp only [List.prefix_concat_iff, forall_eq_or_imp, ← ih, deepest_concat (Nat.le_refl 0),
        depthAfter_zero]
      omega

theorem isGreatest_of_le_iff {s : Set Int} {d : Int} (h : ∀ k, d ≤ k ↔ ∀ e ∈ s, e ≤ k) :
    IsGreatest s d := by
  have hlub : IsLUB s d := isLUB_iff_le_iff.2 h
  -- No integer is a limit of smaller ones, so a least upper bound is reached.
  exact ⟨hlub.mem_of_not_isSuccPrelimit Order.not_isSuccPrelimit_of_isSuccArchimedean, hlub.1⟩

theorem isGreatest_segmentExcesses (p : Program) : IsGreatest p.segmentExcesses p.loopDepth := by
  refine isGreatest_of_le_iff fun k => ?_
  simp only [loopDepth, deepest_le_iff, unclosed_le_iff]
  constructor
  · rintro h _ ⟨i, j, -, -, rfl⟩
    exact h _ (List.take_prefix j _) _ (List.drop_suffix i _)
  · intro h before hb segment hs
    have hle := hb.length_le
    rw [length_toList] at hle
    refine h _ ⟨before.length - segment.length, before.length, Nat.sub_le _ _, hle, ?_⟩
    rw [← List.prefix_iff_eq_take.1 hb, ← List.suffix_iff_eq_drop.1 hs]

example : (ofList [93, 93, 91, 91, 93, 91, 91]).loopDepth = 3 := by
  decide

theorem isGreatest_prefixExcesses (h : surplus p.toList = 0) :
    IsGreatest p.prefixExcesses p.loopDepth := by
  have excess_take (j : Nat) : excess (p.toList.take j) = unclosed (p.toList.take j) := by
    rw [← List.take_append_drop j p.toList, (surplus_append _ _).1] at h
    rw [excess_eq]
    omega
  refine isGreatest_of_le_iff fun k => ?_
  rw [loopDepth, deepest_le_iff]
  constructor
  · rintro h _ ⟨j, -, rfl⟩
    rw [excess_take]
    exact h _ (List.take_prefix j _)
  · intro h before hb
    have hle := hb.length_le
    rw [length_toList] at hle
    have hj := h _ ⟨before.length, hle, rfl⟩
    rwa [excess_take, ← List.prefix_iff_eq_take.1 hb] at hj

theorem deepest_flatten_append {t : Tree} {depth best : Nat} (h : depth ≤ best) :
    deepest depth best (t.flatten ++ bytes) = deepest depth (max best (depth + t.depth)) bytes := by
  induction t generalizing depth best bytes with
  | done => rw [Tree.depth, Nat.add_zero, Nat.max_eq_left h, Tree.flatten, List.nil_append]
  | atom a rest ih =>
      rw [Tree.flatten, List.cons_append, deepest_atom _ _ _ a.property, ih h, Tree.depth]
  | loop body rest ihb ihr =>
      rw [Tree.flatten, List.cons_append, List.append_assoc, List.cons_append, deepest_start,
        ihb (Nat.le_max_right _ _), deepest_end, Nat.add_sub_cancel, ihr (by omega), Tree.depth]
      congr 1
      omega

theorem loopDepth_of_flatten {t : Tree} (h : t.flatten = p.toList) : p.loopDepth = t.depth := by
  rw [loopDepth, ← h, ← List.append_nil t.flatten, deepest_flatten_append (Nat.le_refl 0), deepest]
  omega

end Program

theorem loopDepth_exact (p : Program) :
    IsGreatest p.segmentExcesses p.loopDepth ∧
    (p.validate .strict = .ok () →
      ∃ t : Tree, t.flatten = p.toList ∧ (∀ u : Tree, u.flatten = p.toList → u = t) ∧
        p.loopDepth = t.depth) ∧
    (p.validate .lenient = .ok () → IsGreatest p.prefixExcesses p.loopDepth) := by
  refine ⟨p.isGreatest_segmentExcesses, ?_, ?_⟩
  · intro h
    obtain ⟨t, ht⟩ := Tree.exists_flatten_of_strict h
    exact ⟨t, ht, fun u hu => Tree.flatten_injective (hu.trans ht.symm),
      Program.loopDepth_of_flatten ht⟩
  · intro h
    exact Program.isGreatest_prefixExcesses (Program.validate_lenient_iff.1 h)

end TapeLang
