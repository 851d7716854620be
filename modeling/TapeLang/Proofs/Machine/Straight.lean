import Mathlib.Algebra.BigOperators.Group.List.Basic
import Mathlib.Data.Int.ModEq
import TapeLang.Program.Census
import TapeLang.Proofs.Machine.History
import TapeLang.Proofs.Machine.Refusal

namespace TapeLang

namespace Program

def Straight (p : Program) : Prop :=
  ∀ b ∈ p.toList, IsAtom b

instance (p : Program) : Decidable p.Straight :=
  List.decidableBAll IsAtom p.toList

def upTo (p : Program) (n : Nat) : Program :=
  ofList (p.toList.take n)

def straightStats (p : Program) : RunStats :=
  ⟨.ofNat p.size, 0, .ofNat (p.histogramAt .input), .ofNat (p.histogramAt .output)⟩

variable {p : Program} {n : Nat} {b : UInt8}

theorem histogramAt_le_size (p : Program) (i : Instruction) : p.histogramAt i ≤ p.size := by
  rw [histogramAt_eq, occurrences, ← length_toList]
  exact List.count_le_length

theorem toNat_straightStats (h : p.size < UInt64.size) :
    p.straightStats.steps.toNat = p.size ∧ p.straightStats.jumps.toNat = 0 ∧
      p.straightStats.bytesRead.toNat = p.histogramAt .input ∧
      p.straightStats.bytesWritten.toNat = p.histogramAt .output := by
  have hle (i : Instruction) : p.histogramAt i < UInt64.size :=
    Nat.lt_of_le_of_lt (p.histogramAt_le_size i) h
  exact ⟨UInt64.toNat_ofNat_of_lt' h, rfl, UInt64.toNat_ofNat_of_lt' (hle _),
    UInt64.toNat_ofNat_of_lt' (hle _)⟩

theorem size_upTo (p : Program) (n : Nat) : (p.upTo n).size = min n p.size := by
  rw [upTo, size_ofList, List.length_take, length_toList]

theorem upTo_size (p : Program) : p.upTo p.size = p := by
  rw [upTo, ← length_toList, List.take_length, ofList_toList]

theorem toList_upTo_succ (hb : p.code[n]? = some b) :
    (p.upTo (n + 1)).toList = (p.upTo n).toList ++ [b] := by
  have hat : p.toList[n]? = some b := by rw [toList, Array.getElem?_toList, hb]
  rw [upTo, upTo, toList_ofList, toList_ofList, List.take_add_one, hat]
  rfl

theorem size_upTo_succ (hb : p.code[n]? = some b) :
    (p.upTo (n + 1)).size = (p.upTo n).size + 1 := by
  rw [← length_toList, toList_upTo_succ hb, List.length_append, length_toList]
  rfl

theorem histogramAt_upTo_succ (hb : p.code[n]? = some b) (i : Instruction) :
    (p.upTo (n + 1)).histogramAt i =
      (p.upTo n).histogramAt i + if Instruction.ofByte? b = some i then 1 else 0 := by
  rw [histogramAt_eq, histogramAt_eq, occurrences, toList_upTo_succ hb, List.count_append,
    List.count_singleton]
  simp only [beq_iff_eq, Instruction.ofByte?_eq_some_iff]
  rfl

theorem straightStats_upTo_succ (hb : p.code[n]? = some b) :
    (p.upTo (n + 1)).straightStats =
      (p.upTo n).straightStats.afterAtom (Instruction.ofByte? b) := by
  simp only [straightStats, size_upTo_succ hb, histogramAt_upTo_succ hb, UInt64.ofNat_add]
  cases Instruction.ofByte? b with
  | none => simp [RunStats.afterAtom]
  | some i => cases i <;> simp [RunStats.afterAtom]

theorem Straight.isAtom (h : p.Straight) (hb : p.code[n]? = some b) : IsAtom b := by
  apply h
  rw [toList, Array.mem_toList_iff]
  exact Array.mem_of_getElem? hb

end Program

theorem toNat_succ_modEq (a : UInt8) : (a + 1).toNat ≡ a.toNat + 1 [MOD 256] := by
  rw [UInt8.toNat_add]
  exact Nat.mod_modEq _ _

namespace Tape

def total (t : Tape) : Nat :=
  (t.cells.toList.map UInt8.toNat).sum

theorem total_ofLength (length : Nat) : (ofLength length).total = 0 := by
  simp [ofLength, total]

theorem total_setCurrent (t : Tape) (value : UInt8) :
    (t.setCurrent value).total + t.current.toNat = t.total + value.toNat := by
  obtain ⟨cells, pointer, h⟩ := t
  have hlt : pointer < (cells.toList.map UInt8.toNat).length := by simpa using h
  have hcut := List.sum_take_add_sum_drop (cells.toList.map UInt8.toNat) (pointer + 1)
  rw [List.sum_take_succ _ _ hlt, List.getElem_map, Array.getElem_toList] at hcut
  change ((cells.set pointer value h).toList.map UInt8.toNat).sum + cells[pointer].toNat =
    (cells.toList.map UInt8.toNat).sum + value.toNat
  rw [Array.toList_set, List.map_set, List.sum_set, if_pos hlt]
  omega

theorem total_increment_modEq (t : Tape) : t.increment.total ≡ t.total + 1 [MOD 256] := by
  have hset := t.total_setCurrent (t.current + 1)
  have hcell := toNat_succ_modEq t.current
  unfold Nat.ModEq increment at *
  omega

theorem total_decrement_modEq (t : Tape) : t.decrement.total + 1 ≡ t.total [MOD 256] := by
  have hset := t.total_setCurrent (t.current - 1)
  have hcell := toNat_succ_modEq (t.current - 1)
  rw [UInt8.sub_add_cancel] at hcell
  unfold Nat.ModEq decrement at *
  omega

end Tape

namespace Device

variable {i : Option Instruction} {d d' : Device}

theorem Effect.pointer_add (h : Effect i d (.ok ()) d') :
    d'.tape.pointer + (if i = some .moveLeft then 1 else 0) =
      d.tape.pointer + if i = some .moveRight then 1 else 0 := by
  cases h with
  | moveLeft _ hp => exact Nat.sub_add_cancel (Nat.pos_of_ne_zero hp)
  | _ => rfl

theorem Effect.total_modEq (h : Effect i d (.ok ()) d') (hi : i ≠ some .input) :
    d'.tape.total + (if i = some .decrement then 1 else 0) ≡
      d.tape.total + (if i = some .increment then 1 else 0) [MOD 256] := by
  cases h with
  | increment => exact d.tape.total_increment_modEq
  | decrement => exact d.tape.total_decrement_modEq
  | input => exact absurd rfl hi
  | _ => exact Nat.ModEq.refl _

end Device

namespace Machine

variable {m m' : Machine} {e : ExecutionError}

structure Covers (m : Machine) (q : Program) : Prop where
  ip : m.ip = q.size
  stats : m.stats = q.straightStats
  pointer : (m.device.tape.pointer : Int) = q.histogramAt .moveRight - q.histogramAt .moveLeft
  total : q.histogramAt .input = 0 →
    (m.device.tape.total : Int) ≡ q.histogramAt .increment - q.histogramAt .decrement [ZMOD 256]

theorem Transition.of_straight (hs : m.program.Straight) (h : Transition m (.ok .executed) m') :
    ∃ b, m.program.code[m.ip]? = some b ∧ m'.ip = m.ip + 1 ∧
      m'.stats = m.stats.afterAtom (Instruction.ofByte? b) ∧
      Device.Effect (Instruction.ofByte? b) m.device (.ok ()) m'.device := by
  cases h with
  | atom hb ha he => exact ⟨_, hb, rfl, rfl, he⟩
  | enterLoop hb => exact absurd rfl (hs.isAtom hb).1
  | skipLoop hb => exact absurd rfl (hs.isAtom hb).1
  | leaveLoop hb => exact absurd rfl (hs.isAtom hb).2
  | repeatLoop hb => exact absurd rfl (hs.isAtom hb).2

theorem Transition.failure_of_straight (hs : m.program.Straight)
    (h : Transition m (.error e) m') : ∃ f : Failure, e = f.located m.ip := by
  cases h with
  | atomFails => exact ⟨_, rfl⟩
  | unclosed hb => exact absurd rfl (hs.isAtom hb).1
  | unopened hb => exact absurd rfl (hs.isAtom hb).2

theorem Covers.executed (h : m.Covers (m.program.upTo m.ip)) (hs : m.program.Straight)
    (ht : Transition m (.ok .executed) m') : m'.Covers (m.program.upTo m'.ip) := by
  obtain ⟨b, hb, hip, hstats, he⟩ := ht.of_straight hs
  have hcount := Program.histogramAt_upTo_succ hb
  rw [hip]
  refine ⟨?_, ?_, ?_, ?_⟩
  · rw [hip, Program.size_upTo_succ hb, ← h.ip]
  · rw [hstats, h.stats, Program.straightStats_upTo_succ hb]
  · have hpointer := he.pointer_add
    have := h.pointer
    rw [hcount, hcount]
    omega
  · intro hin
    rw [hcount] at hin
    have htotal := h.total (by omega)
    have hstep := he.total_modEq (fun hi => by simp [hi] at hin)
    rw [hcount, hcount]
    unfold Int.ModEq Nat.ModEq at *
    omega

theorem Covers.congr {q : Program} (h : m.Covers q) (hi : m'.ip = m.ip)
    (hs : m'.stats = m.stats) (ht : m'.device.tape = m.device.tape) : m'.Covers q := by
  refine ⟨hi.trans h.ip, hs.trans h.stats, ?_, ?_⟩
  · rw [ht]
    exact h.pointer
  · rw [ht]
    exact h.total

theorem Covers.start (p : Program) (config : Config) (input : Source) (output : Sink) :
    (start p config input output).Covers (p.upTo 0) := by
  refine ⟨rfl, rfl, rfl, fun _ => ?_⟩
  have htotal : (Machine.start p config input output).device.tape.total = 0 :=
    Tape.total_ofLength config.tapeLength
  rw [htotal]
  exact Int.ModEq.refl _

structure Traverses (p : Program) (past : List Machine) (m : Machine) : Prop where
  program : m.program = p
  length : past.length = m.ip
  covers : m.Covers (p.upTo m.ip)

namespace Traverses

variable {p : Program} {past : List Machine}

theorem congr (h : Traverses p past m) (hp : m'.program = m.program) (hi : m'.ip = m.ip)
    (hs : m'.stats = m.stats) (ht : m'.device.tape = m.device.tape) : Traverses p past m' := by
  refine ⟨hp.trans h.program, h.length.trans hi.symm, ?_⟩
  rw [hi]
  exact h.covers.congr hi hs ht

theorem executed (hp : p.Straight) (h : Traverses p past m)
    (ht : Transition m (.ok .executed) m') : Traverses p (past ++ [m]) m' := by
  obtain ⟨rfl, hlength, hcovers⟩ := h
  obtain ⟨b, -, hip, -⟩ := ht.of_straight hp
  refine ⟨ht.program_eq, ?_, hcovers.executed hp ht⟩
  rw [List.length_append, List.length_singleton, hlength, hip]

theorem failed (h : Traverses p past m) (ht : Transition m (.error e) m') :
    Traverses p past m' := by
  obtain ⟨hm, htape, -⟩ := ht.eq_of_error
  exact h.congr ht.program_eq (by rw [hm]) (by rw [hm]) htape

theorem start (p : Program) (config : Config) (input : Source) (output : Sink) :
    Traverses p [] (start p config input output) :=
  ⟨rfl, rfl, .start p config input output⟩

theorem after (hp : p.Straight) (config : Config) (input : Source) (output : Sink)
    (calls : List Call) :
    Traverses p ((Machine.start p config input output).history calls)
      ((Machine.start p config input output).after calls) :=
  history_invariant (P := Traverses p) (executed hp) failed (fun h => h.congr rfl rfl rfl rfl)
    (start p config input output) calls

theorem of_run {config : Config} {input : Source} {output : Sink} {fuel : Nat}
    {r : Option (Except ExecutionError RunStats)} (hp : p.Straight)
    (h : (Machine.start p config input output).run fuel = (r, m)) :
    Traverses p ((Machine.start p config input output).history [.run fuel]) m := by
  have hafter := after hp config input output [.run fuel]
  rwa [Machine.after, List.foldl_cons, List.foldl_nil, call, h] at hafter

theorem ip_le (h : Traverses p past m) : m.ip ≤ p.size := by
  have hip := h.covers.ip
  rw [Program.size_upTo] at hip
  omega

theorem toNat_stats (h : Traverses p past m) (hlt : p.size < UInt64.size) :
    m.stats.steps.toNat = m.ip ∧ m.stats.jumps.toNat = 0 ∧
      (p.upTo m.ip).histogram[Instruction.input.index]? = some m.stats.bytesRead.toNat ∧
      (p.upTo m.ip).histogram[Instruction.output.index]? = some m.stats.bytesWritten.toNat := by
  have hle : (p.upTo m.ip).size < UInt64.size := by
    rw [← h.covers.ip]
    exact Nat.lt_of_le_of_lt h.ip_le hlt
  obtain ⟨hsteps, hjumps, hread, hwritten⟩ := Program.toNat_straightStats hle
  rw [h.covers.stats, Program.getElem?_histogram, Program.getElem?_histogram, hread, hwritten,
    Program.histogramAt_eq, Program.histogramAt_eq]
  exact ⟨hsteps.trans h.covers.ip.symm, hjumps, rfl, rfl⟩

end Traverses

theorem exists_run_of_straight {fuel : Nat} (hs : m.program.Straight) (hn : m.stepLimit = none)
    (hf : m.program.size - m.ip < fuel) : ∃ r m', m.run fuel = (some r, m') := by
  induction fuel generalizing m with
  | zero => omega
  | succ fuel ih =>
      rcases m.stops_or_executes with ⟨r, m', h⟩ | ⟨hl, m₁, ht⟩
      · exact ⟨r, m', h.run_succ fuel⟩
      · obtain ⟨b, hb, hip, -⟩ := ht.of_straight hs
        have hlt : m.ip < m.program.size := (Array.getElem?_eq_some_iff.1 hb).1
        rw [run_succ_of_executed fuel hl ht]
        refine ih (ht.program_eq ▸ hs) (ht.stepLimit_eq.trans hn) ?_
        rw [ht.program_eq, hip]
        omega

theorem Run.failure_of_straight {bytes : List UInt8} (hs : m.program.Straight)
    (hn : m.stepLimit = none) (h : Run m bytes (.error e) m') :
    m'.ip < m.program.size ∧ ∃ f : Failure, e = f.located m'.ip := by
  have hlimit := h.ne_stepLimitExceeded hn
  obtain ⟨m₁, hm, hstop⟩ := h.exists_stops
  have hp := program_of_stepped hm
  cases hstop with
  | limit => exact absurd rfl (hlimit _)
  | fail hl ht =>
      obtain ⟨b, hb⟩ := isHalted_eq_false_iff.1 ht.not_halted
      obtain ⟨f, rfl⟩ := ht.failure_of_straight (hp ▸ hs)
      rw [ht.eq_of_error.1, ← hp]
      exact ⟨(Array.getElem?_eq_some_iff.1 hb).1, f, rfl⟩

theorem straight_line_counts (p : Program) (hp : p.Straight) (config : Config)
    (hn : config.stepLimit = none) (input : Source) (output : Sink) :
    let first := start p config input output
    (∀ calls,
      let m := first.after calls
      (first.history calls).length = m.ip ∧ m.ip ≤ p.size ∧ m.Covers (p.upTo m.ip) ∧
      (p.size < UInt64.size → m.stats.steps.toNat = m.ip ∧ m.stats.jumps.toNat = 0 ∧
        (p.upTo m.ip).histogram[Instruction.input.index]? = some m.stats.bytesRead.toNat ∧
        (p.upTo m.ip).histogram[Instruction.output.index]? = some m.stats.bytesWritten.toNat)) ∧
    ∃ r m, (∀ fuel, p.size < fuel → first.run fuel = (some r, m)) ∧
      (∀ stats, r = .ok stats → stats = m.stats ∧ m.Covers p) ∧
      ∀ e, r = .error e → m.ip < p.size ∧ m.Covers (p.upTo m.ip) ∧
        ((∃ f, e = .transfer m.ip f) ∨
          ∃ attempted tapeLength, e = .outOfRange m.ip attempted tapeLength) := by
  refine ⟨fun calls => ?_, ?_⟩
  · have h := Traverses.after hp config input output calls
    exact ⟨h.length, h.ip_le, h.covers, h.toNat_stats⟩
  · obtain ⟨r, m, hrun⟩ := exists_run_of_straight (m := start p config input output) hp hn
      (Nat.lt_succ_self p.size)
    have hcovers := (Traverses.of_run hp hrun).covers
    refine ⟨r, m, fun fuel hf => ?_, ?_, ?_⟩
    · obtain ⟨more, rfl⟩ : ∃ more, fuel = p.size + 1 + more := ⟨fuel - (p.size + 1), by omega⟩
      exact run_add_of_some hrun more
    · rintro stats rfl
      have hip : m.ip = p.size := ip_eq_size_of_run (Nat.zero_le _) hrun
      rw [hip, Program.upTo_size] at hcovers
      exact ⟨(Run.of_run hrun).stats_of_ok, hcovers⟩
    · rintro e rfl
      obtain ⟨hlt, f, rfl⟩ := (Run.of_run hrun).failure_of_straight hp hn
      refine ⟨hlt, hcovers, ?_⟩
      cases f with
      | transfer f => exact .inl ⟨f, rfl⟩
      | outOfRange attempted tapeLength => exact .inr ⟨attempted, tapeLength, rfl⟩

theorem straight_line_counts_left_edge :
    let p := Program.ofList [120, 43, 62, 45, 46, 60, 60]
    let first := start p { tapeLength := 2 } .empty .empty
    p.Straight ∧ (p.upTo 6).histogram = [1, 1, 1, 1, 1, 0, 0, 0] ∧
      ∃ m, (∀ fuel, 7 < fuel → first.run fuel = (some (.error (.outOfRange 6 (-1) 2)), m)) ∧
        m.ip < 7 ∧ m.Covers (p.upTo 6) ∧ m.stats = ⟨6, 0, 0, 1⟩ ∧ m.device.tape.pointer = 0 := by
  intro p first
  have hp : p.Straight := by decide
  obtain ⟨-, r, m, hrun, -, herror⟩ :=
    straight_line_counts p hp { tapeLength := 2 } rfl .empty .empty
  have hr : some r = some (.error (.outOfRange 6 (-1) 2)) := by
    rw [← (Prod.mk.inj (hrun 8 (by decide))).1]
    decide
  obtain rfl := Option.some.inj hr
  obtain ⟨hlt, hcovers, ⟨f, hf⟩ | ⟨_, _, hedge⟩⟩ := herror _ rfl
  · cases hf
  · rw [← (ExecutionError.outOfRange.inj hedge).1] at hcovers
    have hpointer : (m.device.tape.pointer : Int) = 0 := hcovers.pointer.trans (by decide)
    exact ⟨hp, by decide, m, hrun, hlt, hcovers, hcovers.stats.trans (by decide),
      Int.natCast_eq_zero.1 hpointer⟩

end Machine

end TapeLang
