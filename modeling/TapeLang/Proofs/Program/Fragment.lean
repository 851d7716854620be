import TapeLang.Proofs.Program.Resolution

namespace TapeLang.Program

theorem openLoops_add (offset depth position : Nat) (bytes : List UInt8) :
    openLoops depth (offset + position) bytes =
      (openLoops depth position bytes).mapError (offset + ·) := by
  induction bytes generalizing depth position with
  | nil => rfl
  | cons b rest ih =>
      rcases boundary_or_atom b with rfl | rfl | ha
      · rw [openLoops_start, openLoops_start, Nat.add_assoc, ih]
      · cases depth with
        | zero =>
            rw [openLoops_end_zero, openLoops_end_zero]
            rfl
        | succ depth => rw [openLoops_end_succ, openLoops_end_succ, Nat.add_assoc, ih]
      · rw [openLoops_atom _ _ _ ha, openLoops_atom _ _ _ ha, Nat.add_assoc, ih]

theorem closeIn_add (offset depth position : Nat) (bytes : List UInt8) :
    closeIn depth (offset + position) bytes =
      (closeIn depth position bytes).map (offset + ·) := by
  rw [closeIn_eq_openLoops, closeIn_eq_openLoops, openLoops_add]
  cases openLoops depth position bytes <;> rfl

theorem closeIn_append_of_some {depth position stop : Nat} {bytes : List UInt8}
    (h : closeIn depth position bytes = some stop) (more : List UInt8) :
    closeIn depth position (bytes ++ more) = some stop := by
  rw [closeIn_eq_openLoops] at h ⊢
  rw [openLoops_append]
  cases ho : openLoops depth position bytes with
  | ok open' =>
      rw [ho] at h
      cases h
  | error stop' =>
      rw [ho] at h
      exact h

theorem openIn_append_of_some {depth start : Nat} {bytes : List UInt8}
    (h : openIn depth bytes = some start) (more : List UInt8) :
    openIn depth (bytes ++ more) = some (more.length + start) := by
  induction bytes generalizing depth with
  | nil => cases h
  | cons b rest ih =>
      rw [List.cons_append]
      rcases boundary_or_atom b with rfl | rfl | ha
      · cases depth with
        | zero =>
            rw [openIn_start_zero] at h ⊢
            rw [List.length_append, ← Option.some.inj h, Nat.add_comm]
        | succ depth =>
            rw [openIn_start_succ] at h ⊢
            exact ih h
      · rw [openIn_end] at h ⊢
        exact ih h
      · rw [openIn_atom _ _ ha] at h ⊢
        exact ih h

/-- A part stands in a whole program from `offset` on, and its jumps lead where they lead in the
part alone. -/
structure Hosts (whole part : Program) (offset : Nat) : Prop where
  byte : ∀ {i b}, part.code[i]? = some b → whole.code[offset + i]? = some b
  matchingClose : ∀ {i}, part.code[i]? = some Instruction.loopStart.byte →
    whole.matchingClose (offset + i) = (part.matchingClose i).map (offset + ·)
  matchingOpen : ∀ {i}, part.code[i]? = some Instruction.loopEnd.byte →
    whole.matchingOpen (offset + i) = (part.matchingOpen i).map (offset + ·)

theorem getElem?_ofList (bytes : List UInt8) (i : Nat) : (ofList bytes).code[i]? = bytes[i]? := by
  simp [ofList]

section

variable {before part after : List UInt8} {i : Nat}

theorem matchingClose_append (hb : part[i]? = some Instruction.loopStart.byte)
    (hc : unclosed part = 0 ∨ surplus after = 0) :
    (ofList (before ++ part ++ after)).matchingClose (before.length + i) =
      ((ofList part).matchingClose i).map (before.length + ·) := by
  have hi : i + 1 ≤ part.length := (List.getElem?_eq_some_iff.1 hb).1
  have hdrop : (before ++ part ++ after).drop (before.length + (i + 1)) =
      part.drop (i + 1) ++ after := by
    rw [List.append_assoc, ← List.drop_drop, List.drop_left, List.drop_append_of_le_length hi]
  rw [matchingClose_eq, matchingClose_eq, toList_ofList, toList_ofList, Nat.add_assoc, hdrop,
    closeIn_add]
  congr 1
  cases h : closeIn 0 (i + 1) (part.drop (i + 1)) with
  | some stop => exact closeIn_append_of_some h after
  | none =>
      have hs := closeIn_eq_none_iff.1 h
      rw [closeIn_eq_none_iff, (surplus_append _ _).1]
      rcases hc with hu | ha
      · -- Nothing in the part is left open.
        have hsome := unclosed_eq_zero_iff.1 (by rwa [toList_ofList]) i
          ((getElem?_ofList part i).trans hb)
        rw [matchingClose_eq, toList_ofList, h] at hsome
        cases hsome
      · omega

theorem matchingOpen_append (hb : part[i]? = some Instruction.loopEnd.byte)
    (ho : surplus part = 0 ∨ unclosed before = 0) :
    (ofList (before ++ part ++ after)).matchingOpen (before.length + i) =
      ((ofList part).matchingOpen i).map (before.length + ·) := by
  have hi : i < part.length := (List.getElem?_eq_some_iff.1 hb).1
  have htake : (before ++ part ++ after).take (before.length + i) = before ++ part.take i := by
    rw [List.append_assoc, List.take_length_add_append,
      List.take_append_of_le_length (Nat.le_of_lt hi)]
  have hpart : (ofList part).matchingOpen i = openIn 0 (part.take i).reverse := by
    rw [matchingOpen_eq _ (by rw [size_ofList]; omega), toList_ofList]
  rw [matchingOpen_eq _ (by rw [size_ofList]; simp; omega), toList_ofList, htake, hpart,
    List.reverse_append]
  cases h : openIn 0 (part.take i).reverse with
  | some start =>
      rw [openIn_append_of_some h, List.length_reverse, Option.map_some]
  | none =>
      have hu := openIn_eq_none_iff.1 h
      rw [← List.reverse_append, Option.map_none, openIn_eq_none_iff, (surplus_append _ _).2]
      rcases ho with hs | hbefore
      · -- Nothing in the part closes a loop begun before it.
        have hsome := surplus_eq_zero_iff.1 (by rwa [toList_ofList]) i
          ((getElem?_ofList part i).trans hb)
        rw [hpart, h] at hsome
        cases hsome
      · omega

/-- Jumps out of a part stay within it when its own delimiters balance; and towards a side where
the surroundings offer no delimiter to jump to, they may be missing in the part as well. -/
theorem hosts_append (ho : surplus part = 0 ∨ unclosed before = 0)
    (hc : unclosed part = 0 ∨ surplus after = 0) :
    (ofList (before ++ part ++ after)).Hosts (ofList part) before.length := by
  refine ⟨?_, ?_, ?_⟩
  · intro i b hb
    rw [getElem?_ofList] at hb ⊢
    have hi := (List.getElem?_eq_some_iff.1 hb).1
    rw [List.append_assoc, List.getElem?_append_right (Nat.le_add_right _ _),
      Nat.add_sub_cancel_left, List.getElem?_append_left hi, hb]
  · intro i hb
    rw [getElem?_ofList] at hb
    exact matchingClose_append hb hc
  · intro i hb
    rw [getElem?_ofList] at hb
    exact matchingOpen_append hb ho

end

theorem hosts_of_strict {part : List UInt8} (h : (ofList part).validate .strict = .ok ())
    (before after : List UInt8) :
    (ofList (before ++ part ++ after)).Hosts (ofList part) before.length := by
  have hbalance := validate_strict_iff.1 h
  rw [toList_ofList] at hbalance
  exact hosts_append (.inl hbalance.1) (.inl hbalance.2)

theorem hosts_after_strict {before : List UInt8}
    (h : (ofList before).validate .strict = .ok ()) (part : List UInt8) :
    (ofList (before ++ part)).Hosts (ofList part) before.length := by
  have hbalance := validate_strict_iff.1 h
  rw [toList_ofList] at hbalance
  rw [← List.append_nil (before ++ part)]
  exact hosts_append (.inr hbalance.2) (.inr rfl)

end TapeLang.Program
