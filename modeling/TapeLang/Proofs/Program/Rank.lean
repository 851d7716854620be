import TapeLang.Proofs.Program.Resolution

namespace TapeLang

def ValidationError.relocate (f : Nat → Nat) : ValidationError → ValidationError
  | .closedBeforeOpen position => .closedBeforeOpen (f position)
  | .unclosed count => .unclosed count

namespace Program

def rank (p : Program) (i : Nat) : Nat :=
  (p.toList.take i).countP isInstruction

variable {p : Program} {i : Nat} {b : UInt8}

theorem drop_eq_cons (hb : p.code[i]? = some b) :
    p.toList.drop i = b :: p.toList.drop (i + 1) := by
  obtain ⟨hlt, hb⟩ := Array.getElem?_eq_some_iff.1 hb
  rw [← hb, ← Array.getElem_toList]
  exact List.drop_eq_getElem_cons (by rw [length_toList]; exact hlt)

theorem rank_add (p : Program) (i k : Nat) :
    p.rank (i + k) = p.rank i + ((p.toList.drop i).take k).countP isInstruction := by
  rw [rank, List.take_add, List.countP_append, rank]

theorem rank_succ (hb : p.code[i]? = some b) :
    p.rank (i + 1) = p.rank i + if isInstruction b then 1 else 0 := by
  rw [rank_add, drop_eq_cons hb, List.take_succ_cons, List.take_zero, List.countP_singleton]

theorem length_filter_take (p : Program) (i : Nat) :
    ((p.toList.take i).filter isInstruction).length = p.rank i :=
  List.countP_eq_length_filter.symm

theorem toList_strip_cut (p : Program) (i : Nat) :
    p.strip.toList =
      (p.toList.take i).filter isInstruction ++ (p.toList.drop i).filter isInstruction := by
  rw [toList_strip, ← List.filter_append, List.take_append_drop]

theorem take_rank (p : Program) (i : Nat) :
    p.strip.toList.take (p.rank i) = (p.toList.take i).filter isInstruction := by
  rw [toList_strip_cut p i]
  exact List.take_left' (p.length_filter_take i)

theorem drop_rank (p : Program) (i : Nat) :
    p.strip.toList.drop (p.rank i) = (p.toList.drop i).filter isInstruction := by
  rw [toList_strip_cut p i]
  exact List.drop_left' (p.length_filter_take i)

theorem rank_of_size_le (h : p.size ≤ i) : p.rank i = p.strip.size := by
  rw [rank, List.take_of_length_le (by rw [length_toList]; exact h), size_strip,
    instructionCount]

theorem rank_le (p : Program) (i : Nat) : p.rank i ≤ p.strip.size := by
  rw [← p.length_filter_take i, ← length_toList, toList_strip_cut p i, List.length_append]
  exact Nat.le_add_right _ _

theorem strip_byte (hb : p.code[i]? = some b) (hi : isInstruction b = true) :
    p.strip.code[p.rank i]? = some b := by
  rw [← Array.getElem?_toList, ← List.head?_drop]
  change (p.strip.toList.drop (p.rank i)).head? = some b
  rw [drop_rank, drop_eq_cons hb, List.filter_cons_of_pos hi, List.head?_cons]

theorem openLoops_filter {depth position position' : Nat} {bytes : List UInt8} {f : Nat → Nat}
    (hf : ∀ k, f (position + k) = position' + (bytes.take k).countP isInstruction) :
    openLoops depth position' (bytes.filter isInstruction) =
      (openLoops depth position bytes).mapError f := by
  induction bytes generalizing depth position position' with
  | nil => rfl
  | cons b rest ih =>
      have hpos : f position = position' := by simpa using hf 0
      have hnext : ∀ k, f (position + 1 + k) =
          (position' + if isInstruction b then 1 else 0) + (rest.take k).countP isInstruction := by
        intro k
        have := hf (k + 1)
        rw [List.take_succ_cons, List.countP_cons] at this
        rw [Nat.add_assoc, Nat.add_comm 1 k, this]
        omega
      by_cases hi : isInstruction b = true
      · simp only [if_pos hi] at hnext
        rw [List.filter_cons_of_pos hi]
        rcases boundary_or_atom b with rfl | rfl | ha
        · rw [openLoops_start, openLoops_start, ih hnext]
        · cases depth with
          | zero =>
              rw [openLoops_end_zero, openLoops_end_zero, ← hpos]
              rfl
          | succ depth => rw [openLoops_end_succ, openLoops_end_succ, ih hnext]
        · rw [openLoops_atom _ _ _ ha, openLoops_atom _ _ _ ha, ih hnext]
      · simp only [if_neg hi, Nat.add_zero] at hnext
        rw [List.filter_cons_of_neg hi]
        have ha := isAtom_of_not_isInstruction (Bool.not_eq_true _ ▸ hi)
        rw [openLoops_atom _ _ _ ha, ih hnext]

theorem openIn_filter {depth : Nat} {bytes : List UInt8} {f : Nat → Nat}
    (hf : ∀ k ≤ bytes.length, f k = (bytes.take k).countP isInstruction) :
    openIn depth (bytes.filter isInstruction).reverse = (openIn depth bytes.reverse).map f := by
  induction bytes using List.reverseRecOn generalizing depth with
  | nil => rfl
  | append_singleton bytes b ih =>
      have hbefore : ∀ k ≤ bytes.length, f k = (bytes.take k).countP isInstruction := by
        intro k hk
        rw [hf k (by rw [List.length_append]; omega), List.take_append_of_le_length hk]
      have hlast : f bytes.length = (bytes.filter isInstruction).length := by
        rw [hbefore _ (Nat.le_refl _), List.take_length, List.countP_eq_length_filter]
      rw [List.filter_append, List.reverse_append, List.reverse_append, List.reverse_singleton,
        List.singleton_append]
      by_cases hi : isInstruction b = true
      · rw [List.filter_cons_of_pos hi, List.filter_nil, List.reverse_singleton,
          List.singleton_append]
        rcases boundary_or_atom b with rfl | rfl | ha
        · cases depth with
          | zero =>
              rw [openIn_start_zero, openIn_start_zero, Option.map_some, List.length_reverse,
                List.length_reverse, hlast]
          | succ depth => rw [openIn_start_succ, openIn_start_succ, ih hbefore]
        · rw [openIn_end, openIn_end, ih hbefore]
        · rw [openIn_atom _ _ ha, openIn_atom _ _ ha, ih hbefore]
      · have ha := isAtom_of_not_isInstruction (Bool.not_eq_true _ ▸ hi)
        rw [List.filter_cons_of_neg hi, List.filter_nil, List.reverse_nil, List.nil_append,
          openIn_atom _ _ ha, ih hbefore]

theorem validate_of_openLoops {q : Program} {f : Nat → Nat}
    (h : openLoops 0 0 q.toList = (openLoops 0 0 p.toList).mapError f) (mode : ValidationMode) :
    q.validate mode = (p.validate mode).mapError (·.relocate f) := by
  unfold validate
  rw [h]
  cases openLoops 0 0 p.toList with
  | error position => rfl
  | ok count =>
      simp only [Except.mapError]
      split <;> rfl

theorem validate_strip (p : Program) (mode : ValidationMode) :
    p.strip.validate mode = (p.validate mode).mapError (·.relocate p.rank) := by
  apply validate_of_openLoops
  rw [toList_strip]
  exact openLoops_filter fun k => by rw [Nat.zero_add, Nat.zero_add, rank]

theorem matchingClose_strip (hb : p.code[i]? = some Instruction.loopStart.byte) :
    p.strip.matchingClose (p.rank i) = (p.matchingClose i).map p.rank := by
  have hr : p.rank i + 1 = p.rank (i + 1) := by
    rw [rank_succ hb, if_pos (isInstruction_byte _)]
  rw [matchingClose_eq, matchingClose_eq, hr, drop_rank, closeIn_eq_openLoops,
    closeIn_eq_openLoops, openLoops_filter (fun k => p.rank_add (i + 1) k)]
  cases openLoops 0 (i + 1) (p.toList.drop (i + 1)) <;> rfl

theorem matchingOpen_strip (h : i ≤ p.size) :
    p.strip.matchingOpen (p.rank i) = (p.matchingOpen i).map p.rank := by
  rw [matchingOpen_eq p h, matchingOpen_eq p.strip (p.rank_le i), take_rank]
  apply openIn_filter
  intro k hk
  rw [List.take_take, Nat.min_eq_left, rank]
  exact Nat.le_trans hk (List.length_take_le i _)

end Program

end TapeLang
