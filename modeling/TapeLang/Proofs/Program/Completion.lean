import TapeLang.Proofs.Program.Fragment
import TapeLang.Proofs.Program.Rank

namespace TapeLang.Program

instance : Append Program :=
  ⟨fun p q => ⟨p.code ++ q.code⟩⟩

@[simp]
theorem toList_append (p q : Program) : (p ++ q).toList = p.toList ++ q.toList :=
  Array.toList_append

def closers (k : Nat) : Program :=
  ofList (List.replicate k Instruction.loopEnd.byte)

def reportedUnclosed (p : Program) : Nat :=
  match p.validate .strict with
  | .error (.unclosed count) => count
  | _ => 0

theorem surplus_replicate (k : Nat) :
    surplus (List.replicate k Instruction.loopEnd.byte) = k ∧
      unclosed (List.replicate k Instruction.loopEnd.byte) = 0 := by
  induction k with
  | zero => exact ⟨rfl, rfl⟩
  | succ k ih =>
      rw [List.replicate_succ, surplus_end, unclosed_end, ih.1, ih.2]
      exact ⟨rfl, rfl⟩

section

variable {p : Program} {k : Nat}

theorem validate_strict_of_surplus (hs : surplus p.toList = 0) :
    p.validate .strict =
      if 0 < unclosed p.toList then .error (.unclosed (unclosed p.toList)) else .ok () := by
  have ho : openLoops 0 0 p.toList = .ok (unclosed p.toList) :=
    openLoops_eq_ok_iff.2 ⟨Nat.le_zero.2 hs, by omega⟩
  simp only [validate, ho, and_true]

theorem reportedUnclosed_of_surplus (hs : surplus p.toList = 0) :
    p.reportedUnclosed = unclosed p.toList := by
  rw [reportedUnclosed, validate_strict_of_surplus hs]
  split
  · rename_i h
    split at h
    · exact (ValidationError.unclosed.inj (Except.error.inj h)).symm
    · cases h
  · rename_i h
    by_contra hne
    exact h _ (if_pos (Nat.pos_of_ne_zero fun h0 => hne h0.symm))

theorem openLoops_append_closers (hs : surplus p.toList = 0) (hk : k ≤ unclosed p.toList) :
    openLoops 0 0 (p ++ closers k).toList = .ok (unclosed p.toList - k) := by
  obtain ⟨hsurplus, hunclosed⟩ :=
    surplus_append p.toList (List.replicate k Instruction.loopEnd.byte)
  rw [openLoops_eq_ok_iff, toList_append, closers, toList_ofList, hsurplus, hunclosed,
    (surplus_replicate k).1, (surplus_replicate k).2]
  omega

theorem openLoops_append_closers_of_lt (hs : surplus p.toList = 0)
    (hk : unclosed p.toList < k) :
    openLoops 0 0 (p ++ closers k).toList = .error (p.size + unclosed p.toList) := by
  -- The first loop end that closes nothing stands after those that close what is open.
  refine openLoops_eq_error_iff.2 ⟨(p ++ closers (unclosed p.toList)).toList,
    List.replicate (k - unclosed p.toList - 1) Instruction.loopEnd.byte, ?_, ?_, ?_⟩
  · rw [toList_append, toList_append, List.append_assoc, ← List.replicate_succ, closers, closers,
      toList_ofList, toList_ofList, List.replicate_append_replicate]
    congr 2
    omega
  · rw [openLoops_append_closers hs (Nat.le_refl _), Nat.sub_self]
  · rw [toList_append, List.length_append, closers, toList_ofList, List.length_replicate,
      length_toList, Nat.zero_add]

theorem validate_append_closers (hs : surplus p.toList = 0) (k : Nat) :
    (p ++ closers k).validate .strict =
      if k < unclosed p.toList then .error (.unclosed (unclosed p.toList - k))
      else if k = unclosed p.toList then .ok ()
      else .error (.closedBeforeOpen (p.size + unclosed p.toList)) := by
  by_cases hk : k ≤ unclosed p.toList
  · simp only [validate, openLoops_append_closers hs hk, and_true, Nat.sub_pos_iff_lt]
    split
    · rfl
    · rw [if_pos (by omega)]
  · simp only [validate, openLoops_append_closers_of_lt hs (Nat.lt_of_not_le hk)]
    rw [if_neg (by omega), if_neg (by omega)]

theorem validate_append (hp : p.validate .strict = .ok ()) (q : Program)
    (mode : ValidationMode) :
    (p ++ q).validate mode = (q.validate mode).mapError (·.relocate (p.size + ·)) := by
  obtain ⟨hs, hu⟩ := validate_strict_iff.1 hp
  have ho : openLoops 0 0 p.toList = .ok 0 :=
    openLoops_eq_ok_iff.2 ⟨Nat.le_zero.2 hs, by omega⟩
  apply validate_of_openLoops
  rw [toList_append, openLoops_append, ho, ← openLoops_add, length_toList]
  exact congrArg (openLoops 0 · q.toList) (Nat.add_comm 0 p.size)

end

theorem validation_under_append (p : Program) :
    (p.validate .lenient = .ok () ↔ ∃ q : Program, (p ++ q).validate .strict = .ok ()) ∧
    (p.validate .lenient = .ok () → ∀ k,
      (p ++ closers k).validate .strict =
        if k < p.reportedUnclosed then .error (.unclosed (p.reportedUnclosed - k))
        else if k = p.reportedUnclosed then .ok ()
        else .error (.closedBeforeOpen (p.size + p.reportedUnclosed))) ∧
    (p.validate .strict = .ok () → ∀ (q : Program) (mode : ValidationMode),
      (p ++ q).validate mode = (q.validate mode).mapError (·.relocate (p.size + ·))) := by
  rw [validate_lenient_iff]
  refine ⟨⟨?_, ?_⟩, ?_, fun hp => validate_append hp⟩
  · intro hs
    refine ⟨closers (unclosed p.toList), ?_⟩
    rw [validate_append_closers hs, if_neg (Nat.lt_irrefl _), if_pos rfl]
  · rintro ⟨q, hq⟩
    have hs := (validate_strict_iff.1 hq).1
    rw [toList_append, (surplus_append p.toList q.toList).1] at hs
    omega
  · intro hs k
    rw [reportedUnclosed_of_surplus hs]
    exact validate_append_closers hs k

end TapeLang.Program
