import TapeLang.Proofs.Program.Nesting

namespace TapeLang.Program

theorem validate_strict_iff {p : Program} :
    p.validate .strict = .ok () ↔ surplus p.toList = 0 ∧ unclosed p.toList = 0 := by
  unfold validate
  cases h : openLoops 0 0 p.toList with
  | error stop =>
      have hs : surplus p.toList ≠ 0 := Nat.ne_of_gt (surplus_gt_of_error h)
      simp [hs]
  | ok count =>
      obtain ⟨hs, rfl⟩ := openLoops_eq_ok_iff.1 h
      have hs0 : surplus p.toList = 0 := by omega
      simp [hs0]

theorem validate_lenient_iff {p : Program} :
    p.validate .lenient = .ok () ↔ surplus p.toList = 0 := by
  unfold validate
  cases h : openLoops 0 0 p.toList with
  | error stop =>
      have hs : surplus p.toList ≠ 0 := Nat.ne_of_gt (surplus_gt_of_error h)
      simp [hs]
  | ok count =>
      have hs := (openLoops_eq_ok_iff.1 h).1
      simpa using hs

theorem unclosed_of_validate_strict {p : Program} {count : Nat}
    (h : p.validate .strict = .error (.unclosed count)) : unclosed p.toList = count := by
  unfold validate at h
  cases ho : openLoops 0 0 p.toList with
  | error stop => simp [ho] at h
  | ok open' =>
      obtain ⟨hs, rfl⟩ := openLoops_eq_ok_iff.1 ho
      simp only [ho, and_true] at h
      split at h
      · simpa using h
      · cases h

theorem matchingClose_eq_none_iff {p : Program} {start : Nat} :
    p.matchingClose start = none ↔ surplus (p.toList.drop (start + 1)) = 0 := by
  rw [matchingClose_eq, closeIn_eq_none_iff, Nat.le_zero]

theorem matchingOpen_eq_none_iff {p : Program} {stop : Nat} (h : stop ≤ p.size) :
    p.matchingOpen stop = none ↔ unclosed (p.toList.take stop) = 0 := by
  rw [matchingOpen_eq p h, openIn_eq_none_iff, Nat.le_zero]

theorem unclosed_eq_countP (bytes : List UInt8) :
    unclosed bytes = (List.range bytes.length).countP fun i =>
      bytes[i]? = some Instruction.loopStart.byte ∧ surplus (bytes.drop (i + 1)) = 0 := by
  induction bytes with
  | nil => rfl
  | cons b rest ih =>
      rw [List.length_cons, List.range_succ_eq_map, List.countP_cons, List.countP_map]
      unfold unclosed
      simp only [Function.comp_def, List.getElem?_cons_succ, List.drop_succ_cons,
        List.getElem?_cons_zero, List.drop_zero, Option.some.injEq, decide_eq_true_eq, ← ih]
      split <;> rfl

theorem surplus_eq_countP (bytes : List UInt8) :
    surplus bytes = (List.range bytes.length).countP fun j =>
      bytes[j]? = some Instruction.loopEnd.byte ∧ unclosed (bytes.take j) = 0 := by
  induction bytes using List.reverseRecOn with
  | nil => rfl
  | append_singleton bytes b ih =>
      have before : (List.range bytes.length).countP (fun j =>
          (bytes ++ [b])[j]? = some Instruction.loopEnd.byte ∧
            unclosed ((bytes ++ [b]).take j) = 0) = surplus bytes := by
        rw [ih]
        apply List.countP_congr
        intro j hj
        have hj : j < bytes.length := List.mem_range.1 hj
        rw [List.getElem?_append_left hj, List.take_append_of_le_length (Nat.le_of_lt hj)]
      rw [List.length_append, List.length_singleton, List.range_succ, List.countP_append, before,
        (surplus_append bytes [b]).1, List.countP_singleton]
      rcases boundary_or_atom b with rfl | rfl | h
      · simp
      · simp only [surplus_end, surplus_nil, List.getElem?_concat_length, true_and,
          List.take_left, decide_eq_true_eq]
        split <;> omega
      · have hne : b ≠ Instruction.loopEnd.byte := h.2
        simp [surplus_atom _ h, hne]

def danglingStarts (p : Program) : List Nat :=
  (List.range p.size).filter fun i =>
    p.code[i]? = some Instruction.loopStart.byte ∧ p.matchingClose i = none

theorem mem_danglingStarts {p : Program} {i : Nat} :
    i ∈ p.danglingStarts ↔
      p.code[i]? = some Instruction.loopStart.byte ∧ p.matchingClose i = none := by
  simp only [danglingStarts, List.mem_filter, List.mem_range, decide_eq_true_eq,
    and_iff_right_iff_imp, and_imp]
  intro hb _
  exact (Array.getElem?_eq_some_iff.1 hb).1

theorem length_danglingStarts (p : Program) : p.danglingStarts.length = unclosed p.toList := by
  rw [danglingStarts, ← List.countP_eq_length_filter, unclosed_eq_countP, length_toList]
  simp only [matchingClose_eq_none_iff, toList, Array.getElem?_toList]

theorem surplus_eq_zero_iff {p : Program} :
    surplus p.toList = 0 ↔ ∀ j, p.code[j]? = some Instruction.loopEnd.byte →
      (p.matchingOpen j).isSome = true := by
  rw [surplus_eq_countP, List.countP_eq_zero]
  simp only [List.mem_range, decide_eq_true_eq, not_and, toList, Array.getElem?_toList]
  constructor
  · intro h j hb
    have hj : j < p.size := (Array.getElem?_eq_some_iff.1 hb).1
    rw [Option.isSome_iff_ne_none, ne_eq, matchingOpen_eq_none_iff (Nat.le_of_lt hj)]
    exact h j hj hb
  · intro h j hj hb
    rw [← toList, ← matchingOpen_eq_none_iff (Nat.le_of_lt hj)]
    exact Option.isSome_iff_ne_none.1 (h j hb)

theorem unclosed_eq_zero_iff {p : Program} :
    unclosed p.toList = 0 ↔ ∀ i, p.code[i]? = some Instruction.loopStart.byte →
      (p.matchingClose i).isSome = true := by
  rw [← length_danglingStarts, List.length_eq_zero_iff, List.eq_nil_iff_forall_not_mem]
  simp only [mem_danglingStarts, not_and, Option.isSome_iff_ne_none, ne_eq]

end TapeLang.Program
