import Mathlib.Data.List.TFAE
import Mathlib.Tactic.TFAE
import TapeLang.Proofs.Machine.Transition
import TapeLang.Proofs.Program.Rank
import TapeLang.Proofs.Program.Tree

namespace TapeLang

namespace Program

/-- One pass from left to right with the open loops on a stack. A loop end is paired with the loop
start on top, and passed over if the stack is empty. -/
def pairsFrom (stack : List Nat) (position : Nat) : List UInt8 → List (Nat × Nat)
  | [] => []
  | b :: rest =>
      if b = Instruction.loopStart.byte then pairsFrom (position :: stack) (position + 1) rest
      else if b = Instruction.loopEnd.byte then
        match stack with
        | [] => pairsFrom [] (position + 1) rest
        | start :: stack => (start, position) :: pairsFrom stack (position + 1) rest
      else pairsFrom stack (position + 1) rest

def pairs (p : Program) : List (Nat × Nat) :=
  pairsFrom [] 0 p.toList

section

variable (stack : List Nat) (start position : Nat) (rest : List UInt8)

@[simp]
theorem pairsFrom_start :
    pairsFrom stack position (Instruction.loopStart.byte :: rest) =
      pairsFrom (position :: stack) (position + 1) rest := by
  simp [pairsFrom]

@[simp]
theorem pairsFrom_end_nil :
    pairsFrom [] position (Instruction.loopEnd.byte :: rest) =
      pairsFrom [] (position + 1) rest := by
  simp [pairsFrom]

@[simp]
theorem pairsFrom_end_cons :
    pairsFrom (start :: stack) position (Instruction.loopEnd.byte :: rest) =
      (start, position) :: pairsFrom stack (position + 1) rest := by
  simp [pairsFrom]

theorem pairsFrom_atom {b : UInt8} (h : IsAtom b) :
    pairsFrom stack position (b :: rest) = pairsFrom stack (position + 1) rest := by
  simp [pairsFrom, h.1, h.2]

end

theorem mem_pairsFrom_iff {stack : List Nat} {position start stop : Nat} {bytes : List UInt8} :
    (start, stop) ∈ pairsFrom stack position bytes ↔
      (∃ depth, stack[depth]? = some start ∧ closeIn depth position bytes = some stop) ∨
        ∃ k, bytes[k]? = some Instruction.loopStart.byte ∧ start = position + k ∧
          closeIn 0 (start + 1) (bytes.drop (k + 1)) = some stop := by
  induction bytes generalizing stack position with
  | nil => simp [pairsFrom, closeIn]
  | cons b rest ih =>
      have first_or_later : (∃ k, (b :: rest)[k]? = some Instruction.loopStart.byte ∧
          start = position + k ∧ closeIn 0 (start + 1) ((b :: rest).drop (k + 1)) = some stop) ↔
          (b = Instruction.loopStart.byte ∧ start = position ∧
            closeIn 0 (start + 1) rest = some stop) ∨
          ∃ k, rest[k]? = some Instruction.loopStart.byte ∧ start = position + 1 + k ∧
            closeIn 0 (start + 1) (rest.drop (k + 1)) = some stop := by
        rw [← Nat.or_exists_add_one]
        simp [Nat.add_assoc, Nat.add_comm 1]
      rw [first_or_later]
      rcases boundary_or_atom b with rfl | rfl | ha
      · rw [pairsFrom_start, ih, ← Nat.or_exists_add_one]
        simp only [List.getElem?_cons_zero, List.getElem?_cons_succ, Option.some.injEq,
          closeIn_start, true_and]
        rw [or_comm (a := position = start ∧ _), or_assoc]
        refine or_congr_right (or_congr_left ?_)
        constructor
        · rintro ⟨rfl, h⟩
          exact ⟨rfl, h⟩
        · rintro ⟨rfl, h⟩
          exact ⟨rfl, h⟩
      · cases stack with
        | nil => simp [ih]
        | cons top stack =>
            rw [pairsFrom_end_cons, List.mem_cons, ih,
              ← Nat.or_exists_add_one (p := fun depth => (top :: stack)[depth]? = some start ∧ _)]
            simp [or_assoc, eq_comm]
      · rw [pairsFrom_atom _ _ _ ha, ih]
        simp [closeIn_atom _ _ _ ha, ha.1]

theorem exists_cut_of_closeIn {position stop : Nat} {bytes : List UInt8}
    (h : closeIn 0 position bytes = some stop) :
    ∃ before after, bytes = before ++ Instruction.loopEnd.byte :: after ∧
      surplus before = 0 ∧ unclosed before = 0 ∧ stop = position + before.length := by
  rw [closeIn_eq_openLoops] at h
  cases ho : openLoops 0 position bytes with
  | ok count =>
      rw [ho] at h
      cases h
  | error stop' =>
      rw [ho] at h
      obtain ⟨before, after, rfl, hb, rfl⟩ := openLoops_eq_error_iff.1 ho
      obtain ⟨hs, hu⟩ := openLoops_eq_ok_iff.1 hb
      exact ⟨before, after, rfl, by omega, by omega, (Option.some.inj h).symm⟩

theorem exists_cut_of_openIn {depth start : Nat} {bytes : List UInt8}
    (h : openIn depth bytes.reverse = some start) :
    ∃ before after, bytes = before ++ Instruction.loopStart.byte :: after ∧
      surplus after = 0 ∧ unclosed after = depth ∧ start = before.length := by
  induction bytes using List.reverseRecOn generalizing depth with
  | nil => cases h
  | append_singleton bytes b ih =>
      -- A byte that the scan passes lengthens what it has passed.
      have pass {depth' : Nat} (h : openIn depth' bytes.reverse = some start)
          (hb : ∀ after, surplus after = 0 → unclosed after = depth' →
            surplus (after ++ [b]) = 0 ∧ unclosed (after ++ [b]) = depth) :
          ∃ before after, bytes ++ [b] = before ++ Instruction.loopStart.byte :: after ∧
            surplus after = 0 ∧ unclosed after = depth ∧ start = before.length := by
        obtain ⟨before, after, rfl, hs, hu, rfl⟩ := ih h
        obtain ⟨hs', hu'⟩ := hb after hs hu
        exact ⟨before, after ++ [b], by simp, hs', hu', rfl⟩
      rw [List.reverse_concat] at h
      rcases boundary_or_atom b with rfl | rfl | ha
      · cases depth with
        | zero =>
            rw [openIn_start_zero, List.length_reverse] at h
            exact ⟨bytes, [], rfl, rfl, rfl, (Option.some.inj h).symm⟩
        | succ depth =>
            rw [openIn_start_succ] at h
            refine pass h fun after hs hu => ?_
            rw [(surplus_append ..).1, (surplus_append ..).2, hs, hu, surplus_start, unclosed_start]
            simp [Nat.add_comm]
      · rw [openIn_end] at h
        refine pass h fun after hs hu => ?_
        rw [(surplus_append ..).1, (surplus_append ..).2, hs, hu, surplus_end, unclosed_end]
        simp
      · rw [openIn_atom _ _ ha] at h
        refine pass h fun after hs hu => ?_
        rw [(surplus_append ..).1, (surplus_append ..).2, hs, hu, surplus_atom _ ha,
          unclosed_atom _ ha]
        simp

structure Encloses (p : Program) (start stop : Nat) : Prop where
  lt : start < stop
  byte_start : p.code[start]? = some Instruction.loopStart.byte
  byte_stop : p.code[stop]? = some Instruction.loopEnd.byte
  balanced : (ofList ((p.toList.take stop).drop (start + 1))).validate .strict = .ok ()

variable {p : Program} {start stop : Nat}

theorem Encloses.exists_contains (h : p.Encloses start stop) :
    ∃ body : Tree, p.Contains start (.loop body .done) ∧ stop = start + 1 + body.size := by
  obtain ⟨body, hbody⟩ := Tree.exists_flatten_of_strict h.balanced
  rw [toList_ofList, List.drop_take] at hbody
  have hstop : stop ≤ p.toList.length := by
    rw [length_toList]
    exact Nat.le_of_lt (Array.getElem?_eq_some_iff.1 h.byte_stop).1
  have hlt := h.lt
  have hrest : p.toList.drop (start + 1) =
      body.flatten ++ Instruction.loopEnd.byte :: p.toList.drop (stop + 1) := by
    rw [hbody, ← drop_eq_cons h.byte_stop]
    have hcut := List.take_append_drop (stop - (start + 1)) (p.toList.drop (start + 1))
    rw [List.drop_drop, Nat.add_sub_of_le hlt] at hcut
    exact hcut.symm
  refine ⟨body, ⟨p.toList.take start, p.toList.drop (stop + 1), ?_, ?_⟩, ?_⟩
  · rw [Tree.flatten, List.cons_append, List.append_assoc, List.cons_append, Tree.flatten,
      List.nil_append, ← hrest, ← drop_eq_cons h.byte_start, List.take_append_drop]
  · rw [List.length_take]
    omega
  · rw [Tree.size, hbody, List.length_take, List.length_drop]
    omega

theorem matchingClose_eq_some_iff (hb : p.code[start]? = some Instruction.loopStart.byte) :
    p.matchingClose start = some stop ↔ p.Encloses start stop := by
  constructor
  · intro h
    refine ⟨lt_of_matchingClose h, hb, byte_of_matchingClose h, ?_⟩
    rw [matchingClose_eq] at h
    obtain ⟨before, after, hcut, hs, hu, rfl⟩ := exists_cut_of_closeIn h
    rw [validate_strict_iff, toList_ofList, List.drop_take, hcut, Nat.add_sub_cancel_left,
      List.take_left]
    exact ⟨hs, hu⟩
  · intro h
    obtain ⟨body, hbody, rfl⟩ := h.exists_contains
    exact hbody.matchingClose

theorem matchingOpen_eq_some_iff (hb : p.code[stop]? = some Instruction.loopEnd.byte) :
    p.matchingOpen stop = some start ↔ p.Encloses start stop := by
  have hle : stop ≤ p.size := Nat.le_of_lt (Array.getElem?_eq_some_iff.1 hb).1
  constructor
  · intro h
    refine ⟨lt_of_matchingOpen hle h, byte_of_matchingOpen hle h, hb, ?_⟩
    rw [matchingOpen_eq p hle] at h
    obtain ⟨before, after, hcut, hs, hu, rfl⟩ := exists_cut_of_openIn h
    rw [validate_strict_iff, toList_ofList, hcut, ← List.drop_drop, List.drop_left, List.drop_one,
      List.tail_cons]
    exact ⟨hs, hu⟩
  · intro h
    obtain ⟨body, hbody, rfl⟩ := h.exists_contains
    exact hbody.matchingOpen

theorem mem_pairs_iff : (start, stop) ∈ p.pairs ↔ p.Encloses start stop := by
  have hscan : (start, stop) ∈ p.pairs ↔ p.code[start]? = some Instruction.loopStart.byte ∧
      p.matchingClose start = some stop := by
    rw [pairs, mem_pairsFrom_iff, matchingClose_eq]
    simp [toList]
  rw [hscan]
  constructor
  · rintro ⟨hb, h⟩
    exact (matchingClose_eq_some_iff hb).1 h
  · intro h
    exact ⟨h.byte_start, (matchingClose_eq_some_iff h.byte_start).2 h⟩

example : (ofList [93, 91, 91, 93, 91]).pairs = [(2, 3)] := by decide

end Program

namespace Machine

variable {m : Machine}

theorem step_eq_unclosed_iff (hb : m.program.code[m.ip]? = some Instruction.loopStart.byte)
    (hc : m.device.cell = 0) :
    m.step = (.error (.unmatchedDelimiter m.ip), m) ↔ m.program.matchingClose m.ip = none := by
  cases ht : m.program.matchingClose m.ip with
  | none => simp [step_of_transition (.unclosed hb hc ht)]
  | some target => simp [step_of_transition (.skipLoop hb hc ht)]

theorem step_eq_unopened_iff (hb : m.program.code[m.ip]? = some Instruction.loopEnd.byte)
    (hc : m.device.cell ≠ 0) :
    m.step = (.error (.unmatchedDelimiter m.ip), m) ↔ m.program.matchingOpen m.ip = none := by
  cases ht : m.program.matchingOpen m.ip with
  | none => simp [step_of_transition (.unopened hb hc ht)]
  | some target => simp [step_of_transition (.repeatLoop hb hc ht)]

end Machine

open Instruction in
theorem jumps_resolve_pairing (p : Program) :
    (∀ i j, p.code[i]? = some loopStart.byte → p.code[j]? = some loopEnd.byte →
      [p.matchingClose i = some j, p.matchingOpen j = some i,
        i < j ∧ (Program.ofList ((p.toList.take j).drop (i + 1))).validate .strict = .ok (),
        (i, j) ∈ p.pairs].TFAE) ∧
    (∀ i, p.code[i]? = some loopStart.byte →
      (p.matchingClose i = none ↔ ∀ j, (i, j) ∉ p.pairs) ∧
      ∀ m : Machine, m.program = p → m.ip = i → m.device.cell = 0 →
        (m.step = (.error (.unmatchedDelimiter i), m) ↔ ∀ j, (i, j) ∉ p.pairs)) ∧
    (∀ j, p.code[j]? = some loopEnd.byte →
      (p.matchingOpen j = none ↔ ∀ i, (i, j) ∉ p.pairs) ∧
      ∀ m : Machine, m.program = p → m.ip = j → m.device.cell ≠ 0 →
        (m.step = (.error (.unmatchedDelimiter j), m) ↔ ∀ i, (i, j) ∉ p.pairs)) := by
  have pairs_iff {i j : Nat} : (i, j) ∈ p.pairs ↔ p.Encloses i j := Program.mem_pairs_iff
  have unclosed {i : Nat} (hb : p.code[i]? = some loopStart.byte) :
      p.matchingClose i = none ↔ ∀ j, (i, j) ∉ p.pairs := by
    rw [Option.eq_none_iff_forall_ne_some]
    exact forall_congr' fun j =>
      not_congr ((Program.matchingClose_eq_some_iff hb).trans pairs_iff.symm)
  have unopened {j : Nat} (hb : p.code[j]? = some loopEnd.byte) :
      p.matchingOpen j = none ↔ ∀ i, (i, j) ∉ p.pairs := by
    rw [Option.eq_none_iff_forall_ne_some]
    exact forall_congr' fun i =>
      not_congr ((Program.matchingOpen_eq_some_iff hb).trans pairs_iff.symm)
  refine ⟨?_, ?_, ?_⟩
  · intro i j hi hj
    tfae_have 1 ↔ 4 := (Program.matchingClose_eq_some_iff hi).trans pairs_iff.symm
    tfae_have 2 ↔ 4 := (Program.matchingOpen_eq_some_iff hj).trans pairs_iff.symm
    tfae_have 3 ↔ 4 := by
      rw [pairs_iff]
      exact ⟨fun h => ⟨h.1, hi, hj, h.2⟩, fun h => ⟨h.lt, h.balanced⟩⟩
    tfae_finish
  · intro i hb
    refine ⟨unclosed hb, ?_⟩
    rintro m rfl rfl hc
    rw [Machine.step_eq_unclosed_iff hb hc, unclosed hb]
  · intro j hb
    refine ⟨unopened hb, ?_⟩
    rintro m rfl rfl hc
    rw [Machine.step_eq_unopened_iff hb hc, unopened hb]

end TapeLang
