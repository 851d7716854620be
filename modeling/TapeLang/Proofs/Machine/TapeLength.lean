import TapeLang.Proofs.Machine.Coupling
import TapeLang.Proofs.Machine.Refusal

namespace TapeLang

namespace Tape

def widened (t : Tape) (extra : Nat) : Tape :=
  ⟨t.cells ++ Array.replicate extra 0, t.pointer, by
    rw [Array.size_append]
    exact Nat.lt_of_lt_of_le t.pointer_lt (Nat.le_add_right _ _)⟩

variable (t : Tape) (extra : Nat)

@[simp]
theorem size_widened : (t.widened extra).size = t.size + extra := by
  simp [widened, size]

theorem getElem?_widened_of_lt {i : Nat} (h : i < t.size) :
    (t.widened extra).cells[i]? = t.cells[i]? :=
  Array.getElem?_append_left h

theorem getElem?_widened_of_le {i : Nat} (h : t.size ≤ i) (hi : i < t.size + extra) :
    (t.widened extra).cells[i]? = some 0 := by
  have hlt : i - t.cells.size < extra := Nat.sub_lt_left_of_lt_add h hi
  rw [widened, Array.getElem?_append_right h, Array.getElem?_replicate, if_pos hlt]

theorem current_widened : (t.widened extra).current = t.current :=
  Array.getElem_append_left t.pointer_lt

theorem setCurrent_widened (value : UInt8) :
    (t.widened extra).setCurrent value = (t.setCurrent value).widened extra := by
  simp only [setCurrent, widened, mk.injEq, and_true]
  exact Array.set_append_left t.pointer_lt

theorem ofLength_widened {short long : Nat} (h : max 1 short + extra = max 1 long) :
    (ofLength short).widened extra = ofLength long := by
  simp only [ofLength, widened, ← h, Array.replicate_append_replicate]

end Tape

def Failure.resized (size : Nat) : Failure → Failure
  | .transfer error => .transfer error
  | .outOfRange attempted _ => .outOfRange attempted size

def ExecutionError.resized (size : Nat) : ExecutionError → ExecutionError
  | .outOfRange position attempted _ => .outOfRange position attempted size
  | e => e

theorem ExecutionError.relabel_resized (size : Nat) (e : ExecutionError) :
    e.relabel (.resized size) = e.resized size := by
  cases e <;> rfl

namespace Device

def widened (d : Device) (extra : Nat) : Device :=
  { d with tape := d.tape.widened extra }

theorem cell_widened (d : Device) (extra : Nat) : (d.widened extra).cell = d.cell :=
  d.tape.current_widened extra

variable {i : Option Instruction} {d d' : Device} {f : Except Failure Unit}

theorem Effect.widened (h : Effect i d f d') (extra : Nat) :
    Effect i (d.widened extra) (f.mapError (.resized (d.tape.size + extra))) (d'.widened extra) ∨
      0 < extra ∧ f = .error (.outOfRange d.tape.size d.tape.size) := by
  have hcell := d.cell_widened extra
  have hsize : (d.widened extra).tape.size = d.tape.size + extra := d.tape.size_widened extra
  have hset (value : UInt8) : (d.widened extra).tape.setCurrent value =
      (d.tape.setCurrent value).widened extra := d.tape.setCurrent_widened extra value
  cases h with
  | commentary => exact .inl (.commentary _)
  | increment =>
      have he := Effect.increment (d.widened extra)
      rw [hset, hcell] at he
      exact .inl he
  | decrement =>
      have he := Effect.decrement (d.widened extra)
      rw [hset, hcell] at he
      exact .inl he
  | moveRight _ hp =>
      have hp' : d.tape.pointer + 1 < (d.widened extra).tape.size := by
        rw [hsize]
        exact Nat.lt_add_right extra hp
      exact .inl (.moveRight (d.widened extra) hp')
  | rightEdge _ hp =>
      rcases Nat.eq_zero_or_pos extra with rfl | hpos
      · have he := Effect.rightEdge (d.widened 0) (hp.trans hsize.symm)
        rw [hsize] at he
        exact .inl he
      · exact .inr ⟨hpos, rfl⟩
  | moveLeft _ hp => exact .inl (.moveLeft (d.widened extra) hp)
  | leftEdge _ hp =>
      have he := Effect.leftEdge (d.widened extra) hp
      rw [hsize] at he
      exact .inl he
  | output _ hw =>
      rw [← hcell] at hw
      exact .inl (.output (d.widened extra) hw)
  | outputFails _ hw =>
      rw [← hcell] at hw
      exact .inl (.outputFails (d.widened extra) hw)
  | input _ hr =>
      have he := Effect.input (d.widened extra) hr
      rw [hset] at he
      exact .inl he
  | inputFails _ hr => exact .inl (.inputFails (d.widened extra) hr)

end Device

namespace Machine

def widening (narrow extra : Nat) : Coupling where
  Rel d w := d.tape.size = narrow ∧ w = d.widened extra
  relabel := .resized (narrow + extra)
  Parts f := 0 < extra ∧ f = .outOfRange narrow narrow
  Past _ := False
  cell_eq := by
    rintro d w ⟨-, rfl⟩
    exact d.cell_widened extra
  effect := by
    rintro i d w d' f ⟨rfl, rfl⟩ he
    rcases he.widened extra with hw | ⟨hpos, hf⟩
    · exact .inl ⟨_, hw, he.size_eq, rfl⟩
    · exact .inr (.inl ⟨_, hf, hpos, rfl⟩)
  past_effect := @Coupling.never_past

structure Widens (narrow wide : Nat) (m w : Machine) : Prop where
  ip : w.ip = m.ip
  pointer : w.device.tape.pointer = m.device.tape.pointer
  stats : w.stats = m.stats
  log : w.log = m.log
  input : w.device.input = m.device.input
  output : w.device.output = m.device.output
  size_narrow : m.device.tape.size = narrow
  size_wide : w.device.tape.size = wide
  below : ∀ i < narrow, w.device.tape.cells[i]? = m.device.tape.cells[i]?
  beyond : ∀ i, narrow ≤ i → i < wide → w.device.tape.cells[i]? = some 0

def AtRightEdge (m : Machine) : Prop :=
  m.MovesRight ∧ m.device.tape.pointer + 1 = m.device.tape.size

section

variable {narrow extra fuel position : Nat} {m m' w : Machine}

theorem widens_of_couples (h : (widening narrow extra).Couples m w) :
    Widens narrow (narrow + extra) m w := by
  obtain ⟨hw, rfl, hd⟩ := h
  rw [hd] at hw
  subst hw
  exact ⟨rfl, rfl, rfl, rfl, rfl, rfl, rfl, Tape.size_widened _ _,
    fun i hi => Tape.getElem?_widened_of_lt _ _ hi,
    fun i hi hlt => Tape.getElem?_widened_of_le _ _ hi hlt⟩

theorem atRightEdge_iff (h : m.device.tape.size = narrow) :
    narrow < narrow + extra ∧ m.MovesRight ∧ m.device.tape.pointer = narrow - 1 ↔
      0 < extra ∧ m.AtRightEdge := by
  have hpos := m.device.tape.size_pos
  have hlt : narrow < narrow + extra ↔ 0 < extra := by omega
  have hlast : m.device.tape.pointer = narrow - 1 ↔
      m.device.tape.pointer + 1 = m.device.tape.size := by omega
  rw [hlt, hlast, AtRightEdge]

theorem transition_of_atRightEdge (h : m.AtRightEdge) :
    Transition m (.error (.outOfRange m.ip m.device.tape.size m.device.tape.size)) m := by
  obtain ⟨hi, hp⟩ := h
  exact .fails hi (.rightEdge m.device hp)

theorem atRightEdge_of_transition {n : Nat}
    (h : Transition m (.error (.outOfRange position n n)) m') : m.AtRightEdge := by
  obtain ⟨-, -, ⟨-, -, hn⟩ | ⟨hi, hp, -⟩⟩ := refuses_outOfRange_iff.1 h.refuses
  · omega
  · exact ⟨hi, hp⟩

theorem exists_transition_of_atRightEdge (h : (widening narrow extra).Couples m w)
    (hm : m.AtRightEdge) (hpos : 0 < extra) : ∃ w', Transition w (.ok .executed) w' := by
  obtain ⟨hb, hp⟩ := hm
  have hw := widens_of_couples h
  have hlt : w.device.tape.pointer + 1 < w.device.tape.size := by
    rw [hw.pointer, hw.size_wide, hp, hw.size_narrow]
    exact Nat.lt_add_of_pos_right hpos
  have he : Device.Effect (Instruction.ofByte? Instruction.moveRight.byte) w.device (.ok ())
      { w.device with tape := ⟨w.device.tape.cells, w.device.tape.pointer + 1, hlt⟩ } :=
    .moveRight w.device hlt
  rw [MovesRight, ← h.program, ← h.ip] at hb
  exact ⟨_, .atom hb (by decide) he⟩

theorem step_of_couples (h : (widening narrow extra).Couples m w)
    (hm : ¬ (0 < extra ∧ m.AtRightEdge)) :
    w.step.1 = m.step.1.mapError (·.resized (narrow + extra)) ∧
      (widening narrow extra).Couples m.step.2 w.step.2 := by
  obtain ⟨r, m', ht⟩ := m.exists_transition
  rcases h.transition ht with ⟨w', htw, hw'⟩ | hp | ⟨e, rfl, f, position, rfl, hpos, rfl⟩
  · rw [step_of_transition ht, step_of_transition htw]
    refine ⟨?_, hw'⟩
    cases r with
    | ok => rfl
    | error e => exact congrArg Except.error (e.relabel_resized _)
  · exact hp.elim
  · exact absurd ⟨hpos, atRightEdge_of_transition ht⟩ hm

theorem run_of_couples (h : (widening narrow extra).Couples m w)
    (hm : ∀ position, (m.run fuel).1 ≠ some (.error (.outOfRange position narrow narrow))) :
    (w.run fuel).1 = (m.run fuel).1.map (·.mapError (·.resized (narrow + extra))) ∧
      (widening narrow extra).Couples (m.run fuel).2 (w.run fuel).2 := by
  rcases h.run fuel with ⟨w', hw, hw'⟩ | hp | ⟨e, he, f, position, rfl, -, rfl⟩
  · rw [hw]
    refine ⟨?_, hw'⟩
    cases (m.run fuel).1 with
    | none => rfl
    | some r =>
        cases r with
        | ok => rfl
        | error e => exact congrArg (some ∘ Except.error) (e.relabel_resized _)
  · exact hp.elim
  · exact absurd he (hm position)

end

theorem tape_length_monotone (p : Program) (config : Config) (input : Source) (output : Sink)
    {short long : Nat} (h : max 1 short ≤ max 1 long) :
    let narrow := start p { config with tapeLength := short } input output
    let wide := start p { config with tapeLength := long } input output
    (∀ count m, narrow.stepped count = some m → ∃ w, wide.stepped count = some w ∧
      Widens (max 1 short) (max 1 long) m w ∧
      (max 1 short < max 1 long ∧ m.MovesRight ∧ m.device.tape.pointer = max 1 short - 1 →
        m.step.1 = .error (.outOfRange m.ip (max 1 short : Nat) (max 1 short)) ∧
          w.step.1 = .ok .executed) ∧
      (¬ (max 1 short < max 1 long ∧ m.MovesRight ∧
          m.device.tape.pointer = max 1 short - 1) →
        w.step.1 = m.step.1.mapError (·.resized (max 1 long)) ∧
          Widens (max 1 short) (max 1 long) m.step.2 w.step.2)) ∧
    ∀ fuel,
      (∀ position, (narrow.run fuel).1 ≠
        some (.error (.outOfRange position (max 1 short : Nat) (max 1 short)))) →
      (wide.run fuel).1 = (narrow.run fuel).1.map (·.mapError (·.resized (max 1 long))) ∧
        Widens (max 1 short) (max 1 long) (narrow.run fuel).2 (wide.run fuel).2 := by
  intro narrow wide
  obtain ⟨extra, hextra⟩ := Nat.exists_eq_add_of_le h
  rw [hextra]
  have hstart : (widening (max 1 short) extra).Couples narrow wide := by
    refine ⟨rfl, Tape.size_ofLength short, ?_⟩
    change (⟨Tape.ofLength long, input, output⟩ : Device) =
      ⟨(Tape.ofLength short).widened extra, input, output⟩
    rw [Tape.ofLength_widened extra hextra.symm]
  refine ⟨?_, ?_⟩
  · intro count m hm
    obtain ⟨w, hw, hc⟩ := (hstart.stepped hm).resolve_right id
    have hwidens := widens_of_couples hc
    have hedge : _ ↔ 0 < extra ∧ m.AtRightEdge := atRightEdge_iff hwidens.size_narrow
    refine ⟨w, hw, hwidens, ?_, ?_⟩
    · intro he
      obtain ⟨hpos, hm⟩ := hedge.1 he
      obtain ⟨w', htw⟩ := exists_transition_of_atRightEdge hc hm hpos
      rw [step_of_transition (transition_of_atRightEdge hm), step_of_transition htw,
        hwidens.size_narrow]
      exact ⟨rfl, rfl⟩
    · intro he
      obtain ⟨hr, hc'⟩ := step_of_couples hc (mt hedge.2 he)
      exact ⟨hr, widens_of_couples hc'⟩
  · intro fuel hm
    obtain ⟨hr, hc⟩ := run_of_couples hstart hm
    exact ⟨hr, widens_of_couples hc⟩

theorem tape_length_monotone_edge :
    max 1 2 ≤ max 1 3 ∧
      let narrow := start (.ofList [62, 62]) { tapeLength := 2 } .empty .empty
      let wide := start (.ofList [62, 62]) { tapeLength := 3 } .empty .empty
      ∃ m w, narrow.stepped 1 = some m ∧ wide.stepped 1 = some w ∧ Widens 2 3 m w ∧
        m.step.1 = .error (.outOfRange 1 2 2) ∧ w.step.1 = .ok .executed := by
  refine ⟨by decide, ?_⟩
  have hle : max 1 2 ≤ max 1 3 := by decide
  obtain ⟨hstepped, -⟩ := tape_length_monotone (.ofList [62, 62]) {} .empty .empty hle
  obtain ⟨w, hw, hwidens, hedge, -⟩ := hstepped 1 _ rfl
  exact ⟨_, w, rfl, hw, hwidens, hedge (by decide)⟩

end Machine

end TapeLang
