import Mathlib.Order.Bounds.Basic
import TapeLang.Proofs.Program.Tree

namespace TapeLang

namespace Tree

inductive Derives : Tree → List UInt8 → Prop
  | done : Derives done []
  | atom (a : Atom) {rest : Tree} {bytes : List UInt8} (h : Derives rest bytes) :
      Derives (atom a rest) (a.val :: bytes)
  | loop {body rest : Tree} {inside after : List UInt8} (hb : Derives body inside)
      (hr : Derives rest after) :
      Derives (loop body rest)
        (Instruction.loopStart.byte :: (inside ++ Instruction.loopEnd.byte :: after))

variable {t u : Tree} {bytes : List UInt8} {p : Program}

theorem derives_iff : t.Derives bytes ↔ t.flatten = bytes := by
  constructor
  · intro h
    induction h with
    | done => rfl
    | atom a _ ih => rw [flatten, ih]
    | loop _ _ ihb ihr => rw [flatten, ihb, ihr]
  · rintro rfl
    induction t with
    | done => exact .done
    | atom a rest ih => exact .atom a ih
    | loop body rest ihb ihr => exact .loop ihb ihr

theorem strict_of_flatten (h : t.flatten = p.toList) : p.validate .strict = .ok () := by
  have hclose := t.closeIn_flatten_append 0 0 []
  have hopen := t.openIn_flatten_append 0 []
  rw [List.append_nil, h] at hclose hopen
  exact Program.validate_strict_iff.2
    ⟨Nat.le_zero.1 (Program.closeIn_eq_none_iff.1 hclose),
      Nat.le_zero.1 (Program.openIn_eq_none_iff.1 hopen)⟩

end Tree

namespace Program

def overclosures (p : Program) : Set Nat :=
  { q | q < p.size ∧ (p.toList.take (q + 1)).count Instruction.loopStart.byte <
    (p.toList.take (q + 1)).count Instruction.loopEnd.byte }

variable {p : Program} {bytes more : List UInt8} {q : Nat}

theorem count_le_of_surplus (h : surplus (bytes ++ more) = 0) :
    bytes.count Instruction.loopEnd.byte ≤ bytes.count Instruction.loopStart.byte := by
  rw [(surplus_append bytes more).1] at h
  have hcount := count_add_surplus bytes
  omega

theorem not_mem_overclosures (h : surplus p.toList = 0) : q ∉ p.overclosures := by
  rintro ⟨-, hlt⟩
  rw [← List.take_append_drop (q + 1) p.toList] at h
  exact absurd (count_le_of_surplus h) (Nat.not_le.2 hlt)

theorem isLeast_overclosures {before after : List UInt8}
    (h : p.toList = before ++ Instruction.loopEnd.byte :: after)
    (ho : openLoops 0 0 before = .ok 0) : IsLeast p.overclosures before.length := by
  obtain ⟨hs, hu⟩ := openLoops_eq_ok_iff.1 ho
  have hcount := count_add_surplus before
  constructor
  · constructor
    · rw [← length_toList, h, List.length_append, List.length_cons]
      omega
    · rw [h, List.take_length_add_append, List.take_succ_cons, List.take_zero, List.count_append,
        List.count_append, List.count_cons_self, List.count_cons_of_ne loopEnd_ne_loopStart,
        List.count_nil, List.count_nil]
      omega
  · rintro q ⟨-, hlt⟩
    rw [← Nat.not_lt]
    intro hq
    rw [h, List.take_append_of_le_length hq] at hlt
    have hcut : before.take (q + 1) ++ before.drop (q + 1) = before := List.take_append_drop ..
    have hle := count_le_of_surplus (hcut.symm ▸ Nat.le_zero.1 hs)
    exact absurd hle (Nat.not_le.2 hlt)

theorem openLoops_eq_error_iff_isLeast :
    openLoops 0 0 p.toList = .error q ↔ IsLeast p.overclosures q := by
  have least {q : Nat} (h : openLoops 0 0 p.toList = .error q) : IsLeast p.overclosures q := by
    obtain ⟨before, after, hp, ho, rfl⟩ := openLoops_eq_error_iff.1 h
    rw [Nat.zero_add]
    exact isLeast_overclosures hp ho
  constructor
  · exact least
  · intro h
    cases ho : openLoops 0 0 p.toList with
    | error stop => rw [(least ho).unique h]
    | ok count =>
        have hs := Nat.le_zero.1 (openLoops_eq_ok_iff.1 ho).1
        exact absurd h.1 (not_mem_overclosures hs)

theorem overclosures_eq_empty_iff : p.overclosures = ∅ ↔ surplus p.toList = 0 := by
  constructor
  · intro h
    cases ho : openLoops 0 0 p.toList with
    | error stop =>
        have hmem := (openLoops_eq_error_iff_isLeast.1 ho).1
        rw [h] at hmem
        exact hmem.elim
    | ok count => exact Nat.le_zero.1 (openLoops_eq_ok_iff.1 ho).1
  · intro h
    exact Set.eq_empty_of_forall_notMem fun q => not_mem_overclosures h

theorem validate_eq_closedBeforeOpen_iff {mode : ValidationMode} :
    p.validate mode = .error (.closedBeforeOpen q) ↔ openLoops 0 0 p.toList = .error q := by
  unfold validate
  cases openLoops 0 0 p.toList with
  | error stop => simp
  | ok count =>
      simp only [reduceCtorEq, iff_false]
      split <;> simp

theorem validate_eq_unclosed_iff (hs : surplus p.toList = 0) {count : Nat} :
    p.validate .strict = .error (.unclosed count) ↔
      0 < count ∧ p.toList.count Instruction.loopStart.byte =
        p.toList.count Instruction.loopEnd.byte + count := by
  have ho : openLoops 0 0 p.toList = .ok (unclosed p.toList) :=
    openLoops_eq_ok_iff.2 ⟨Nat.le_zero.2 hs, by omega⟩
  have hcount := count_add_surplus p.toList
  unfold validate
  simp only [ho, and_true]
  split
  · simp only [Except.error.injEq, ValidationError.unclosed.injEq]
    omega
  · simp only [reduceCtorEq, false_iff]
    omega

end Program

open Instruction in
theorem validation_exact (p : Program) :
    (p.validate .strict = .ok () ↔ ∃ t : Tree, t.Derives p.toList) ∧
    (∀ t u : Tree, t.Derives p.toList → u.Derives p.toList → t = u) ∧
    (∀ mode q, p.validate mode = .error (.closedBeforeOpen q) ↔ IsLeast p.overclosures q) ∧
    (∀ q, IsLeast p.overclosures q →
      p.code[q]? = some loopEnd.byte ∧
        (Program.ofList (p.toList.take q)).validate .strict = .ok ()) ∧
    (p.overclosures = ∅ →
      (∀ count, p.validate .strict = .error (.unclosed count) ↔
        0 < count ∧ p.toList.count loopStart.byte = p.toList.count loopEnd.byte + count) ∧
      p.validate .lenient = .ok ()) := by
  refine ⟨⟨?_, ?_⟩, ?_, ?_, ?_, ?_⟩
  · intro h
    obtain ⟨t, ht⟩ := Tree.exists_flatten_of_strict h
    exact ⟨t, Tree.derives_iff.2 ht⟩
  · rintro ⟨t, ht⟩
    exact Tree.strict_of_flatten (Tree.derives_iff.1 ht)
  · intro t u ht hu
    exact Tree.flatten_injective ((Tree.derives_iff.1 ht).trans (Tree.derives_iff.1 hu).symm)
  · intro mode q
    rw [Program.validate_eq_closedBeforeOpen_iff, Program.openLoops_eq_error_iff_isLeast]
  · intro q hq
    obtain ⟨before, after, hp, ho, rfl⟩ := Program.openLoops_eq_error_iff.1
      (Program.openLoops_eq_error_iff_isLeast.2 hq)
    rw [Nat.zero_add]
    constructor
    · rw [← Array.getElem?_toList, ← Program.toList, hp, List.getElem?_append_right (Nat.le_refl _),
        Nat.sub_self, List.getElem?_cons_zero]
    · obtain ⟨hs, hu⟩ := Program.openLoops_eq_ok_iff.1 ho
      rw [Program.validate_strict_iff, Program.toList_ofList, hp, List.take_left]
      omega
  · intro h
    have hs := Program.overclosures_eq_empty_iff.1 h
    exact ⟨fun count => Program.validate_eq_unclosed_iff hs, Program.validate_lenient_iff.2 hs⟩

end TapeLang
