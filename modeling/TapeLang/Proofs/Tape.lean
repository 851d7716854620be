import TapeLang.Tape

namespace TapeLang.Tape

inductive Operation where
  | increment
  | decrement
  | setCurrent (value : UInt8)
  | moveRight
  | moveLeft
  deriving DecidableEq, Repr

abbrev Answer : Type :=
  Except OutOfBounds Unit

namespace Operation

def opposite? : Operation → Option Operation
  | .moveRight => some .moveLeft
  | .moveLeft => some .moveRight
  | _ => none

def offset? : Operation → Option Int
  | .moveRight => some 1
  | .moveLeft => some (-1)
  | _ => none

theorem offset?_eq_some {op : Operation} {offset : Int} (h : op.offset? = some offset) :
    offset = 1 ∨ offset = -1 := by
  cases op with
  | moveRight => exact .inl (Option.some.inj h).symm
  | moveLeft => exact .inr (Option.some.inj h).symm
  | _ => cases h

theorem exists_offset_of_opposite {op op' : Operation} (h : op.opposite? = some op') :
    ∃ offset, op.offset? = some offset ∧ op'.offset? = some (-offset) := by
  cases op with
  | moveRight =>
      cases h
      exact ⟨1, rfl, rfl⟩
  | moveLeft =>
      cases h
      exact ⟨-1, rfl, rfl⟩
  | _ => cases h

def upDown (up down : Nat) : List Operation :=
  List.replicate up .increment ++ List.replicate down .decrement

theorem offset?_of_mem_upDown {up down : Nat} {op : Operation} (h : op ∈ upDown up down) :
    op.offset? = none := by
  rcases List.mem_append.1 h with h | h
  · rw [List.eq_of_mem_replicate h]
    rfl
  · rw [List.eq_of_mem_replicate h]
    rfl

section

variable {σ : Type} (apply : σ → Operation → Answer × σ)

def after (s : σ) : List Operation → σ
  | [] => s
  | op :: ops => after (apply s op).2 ops

def answers (s : σ) : List Operation → List Answer
  | [] => []
  | op :: ops => (apply s op).1 :: answers (apply s op).2 ops

theorem after_append (s : σ) (ops more : List Operation) :
    after apply s (ops ++ more) = after apply (after apply s ops) more := by
  induction ops generalizing s with
  | nil => rfl
  | cons op ops ih => exact ih (apply s op).2

end

end Operation

open Operation

def moved (t : Tape) : Except OutOfBounds Tape → Answer × Tape
  | .ok t' => (.ok (), t')
  | .error e => (.error e, t)

def apply (t : Tape) : Operation → Answer × Tape
  | .increment => (.ok (), t.increment)
  | .decrement => (.ok (), t.decrement)
  | .setCurrent value => (.ok (), t.setCurrent value)
  | .moveRight => t.moved t.moveRight
  | .moveLeft => t.moved t.moveLeft

structure Ideal where
  length : Int
  position : Int
  counter : Int → Int

namespace Ideal

def ofLength (length : Nat) : Ideal :=
  ⟨max 1 length, 0, fun _ => 0⟩

def adjust (m : Ideal) (f : Int → Int) : Ideal :=
  { m with counter := fun i => if i = m.position then f (m.counter i) else m.counter i }

def move (m : Ideal) (offset : Int) : Answer × Ideal :=
  if 0 ≤ m.position + offset ∧ m.position + offset < m.length then
    (.ok (), { m with position := m.position + offset })
  else (.error ⟨m.position + offset⟩, m)

def apply (m : Ideal) : Operation → Answer × Ideal
  | .increment => (.ok (), m.adjust (· + 1))
  | .decrement => (.ok (), m.adjust (· + -1))
  | .setCurrent value => (.ok (), m.adjust fun _ => value.toNat)
  | .moveRight => m.move 1
  | .moveLeft => m.move (-1)

theorem adjust_zero (m : Ideal) : m.adjust (· + 0) = m := by
  simp [adjust]

theorem adjust_adjust (m : Ideal) (a b : Int) :
    (m.adjust (· + a)).adjust (· + b) = m.adjust (· + (a + b)) := by
  simp only [adjust, mk.injEq, true_and]
  funext i
  split <;> omega

theorem length_apply (m : Ideal) (op : Operation) : (m.apply op).2.length = m.length := by
  have length_move (offset : Int) : (m.move offset).2.length = m.length := by
    unfold move
    split <;> rfl
  cases op with
  | moveRight => exact length_move 1
  | moveLeft => exact length_move (-1)
  | _ => rfl

theorem length_after (m : Ideal) (ops : List Operation) :
    (after apply m ops).length = m.length := by
  induction ops generalizing m with
  | nil => rfl
  | cons op ops ih => exact (ih _).trans (m.length_apply op)

theorem after_replicate {op : Operation} {a : Int}
    (h : ∀ m : Ideal, (m.apply op).2 = m.adjust (· + a)) (m : Ideal) (n : Nat) :
    after apply m (List.replicate n op) = m.adjust (· + n * a) := by
  induction n generalizing m with
  | zero =>
      rw [Int.natCast_zero, Int.zero_mul, adjust_zero]
      rfl
  | succ n ih =>
      rw [List.replicate_succ, after, h, ih, adjust_adjust, Int.natCast_succ, Int.add_mul,
        Int.one_mul, Int.add_comm]

theorem after_upDown (m : Ideal) (up down : Nat) :
    after apply m (upDown up down) = m.adjust (· + (up - down)) := by
  rw [upDown, after_append, after_replicate (fun _ => rfl), after_replicate (fun _ => rfl),
    adjust_adjust]
  congr 1
  funext i
  omega

end Ideal

structure Represents (t : Tape) (m : Ideal) : Prop where
  length_eq : m.length = t.size
  position_eq : m.position = t.pointer
  cell_eq : ∀ (i : Nat) (c : UInt8), t.cells[i]? = some c → (c.toNat : Int) = m.counter i % 256

variable {t t' : Tape} {m : Ideal} {e : OutOfBounds} {op op' : Operation}

theorem represents_ofLength (length : Nat) : (ofLength length).Represents (.ofLength length) := by
  refine ⟨?_, rfl, ?_⟩
  · rw [size_ofLength]
    dsimp only [Ideal.ofLength]
    omega
  · intro i c h
    simp only [ofLength, Array.getElem?_replicate] at h
    split at h
    · cases h
      rfl
    · cases h

namespace Represents

theorem current_eq (h : t.Represents m) : (t.current.toNat : Int) = m.counter m.position % 256 := by
  rw [h.position_eq]
  exact h.cell_eq t.pointer t.current t.getElem?_pointer

theorem adjust (h : t.Represents m) {value : UInt8} {f : Int → Int}
    (hv : (value.toNat : Int) = f (m.counter m.position) % 256) :
    (t.setCurrent value).Represents (m.adjust f) := by
  refine ⟨?_, ?_, ?_⟩
  · rw [size_setCurrent]
    exact h.length_eq
  · rw [pointer_setCurrent]
    exact h.position_eq
  · intro i c hc
    rw [getElem?_setCurrent] at hc
    rw [Ideal.adjust, h.position_eq]
    dsimp only
    split at hc
    · rename_i hi
      subst hi
      cases hc
      rw [if_pos rfl, hv, h.position_eq]
    · rename_i hi
      rw [if_neg (by omega)]
      exact h.cell_eq i c hc

theorem increment (h : t.Represents m) : t.increment.Represents (m.adjust (· + 1)) := by
  have hc := h.current_eq
  apply h.adjust
  rw [UInt8.toNat_add, UInt8.toNat_one]
  omega

theorem decrement (h : t.Represents m) : t.decrement.Represents (m.adjust (· + -1)) := by
  have hc := h.current_eq
  apply h.adjust
  rw [UInt8.toNat_sub, UInt8.toNat_one]
  omega

theorem setCurrent (h : t.Represents m) (value : UInt8) :
    (t.setCurrent value).Represents (m.adjust fun _ => value.toNat) := by
  have hlt := value.toNat_lt
  apply h.adjust
  omega

end Represents

def Moves (t : Tape) (offset : Int) : Except OutOfBounds Tape → Prop
  | .ok t' => t'.cells = t.cells ∧ (t'.pointer : Int) = t.pointer + offset
  | .error e => e.attempted = t.pointer + offset ∧ (e.attempted < 0 ∨ t.size ≤ e.attempted)

theorem moves_moveRight (t : Tape) : t.Moves 1 t.moveRight := by
  cases h : t.moveRight with
  | ok t' =>
      unfold moveRight at h
      split at h <;> cases h
      exact ⟨rfl, Int.natCast_succ t.pointer⟩
  | error e =>
      obtain ⟨hp, rfl⟩ := moveRight_eq_error_iff.1 h
      exact ⟨by dsimp only; omega, .inr (Int.le_refl _)⟩

theorem moves_moveLeft (t : Tape) : t.Moves (-1) t.moveLeft := by
  cases h : t.moveLeft with
  | ok t' =>
      unfold moveLeft at h
      split at h <;> cases h
      exact ⟨rfl, by dsimp only; omega⟩
  | error e =>
      obtain ⟨hp, rfl⟩ := moveLeft_eq_error_iff.1 h
      exact ⟨by dsimp only; omega, .inl (by decide)⟩

theorem Represents.move (h : t.Represents m) {offset : Int} {r : Except OutOfBounds Tape}
    (hr : t.Moves offset r) :
    (t.moved r).1 = (m.move offset).1 ∧ (t.moved r).2.Represents (m.move offset).2 := by
  have hlength := h.length_eq
  have hposition := h.position_eq
  cases r with
  | ok t' =>
      obtain ⟨hcells, hpointer⟩ := hr
      have hlt := t'.pointer_lt
      have hsize : t'.size = t.size := congrArg Array.size hcells
      rw [hcells] at hlt
      rw [Ideal.move, if_pos (by unfold size at hlength; omega)]
      refine ⟨rfl, hlength.trans (congrArg Nat.cast hsize.symm), ?_, ?_⟩
      · exact (congrArg (· + offset) hposition).trans hpointer.symm
      · intro i c hc
        exact h.cell_eq i c (hcells ▸ hc)
  | error e =>
      obtain ⟨hattempted, houtside⟩ := hr
      rw [Ideal.move, if_neg (by omega), hposition, ← hattempted]
      exact ⟨rfl, h⟩

theorem Represents.apply (h : t.Represents m) (op : Operation) :
    (t.apply op).1 = (m.apply op).1 ∧ (t.apply op).2.Represents (m.apply op).2 := by
  cases op with
  | increment => exact ⟨rfl, h.increment⟩
  | decrement => exact ⟨rfl, h.decrement⟩
  | setCurrent value => exact ⟨rfl, h.setCurrent value⟩
  | moveRight => exact h.move t.moves_moveRight
  | moveLeft => exact h.move t.moves_moveLeft

theorem Represents.run (h : t.Represents m) (ops : List Operation) :
    answers Tape.apply t ops = answers Ideal.apply m ops ∧
      (after Tape.apply t ops).Represents (after Ideal.apply m ops) := by
  induction ops generalizing t m with
  | nil => exact ⟨rfl, h⟩
  | cons op ops ih =>
      obtain ⟨hanswer, hleft⟩ := h.apply op
      obtain ⟨hanswers, hafter⟩ := ih hleft
      exact ⟨by rw [answers, answers, hanswer, hanswers], hafter⟩

theorem Moves.attempted_eq {offset : Int} (h : t.Moves offset (.error e))
    (ho : offset = 1 ∨ offset = -1) : e.attempted = -1 ∨ e.attempted = t.size := by
  obtain ⟨hattempted, houtside⟩ := h
  have hlt := t.pointer_lt
  unfold size at *
  omega

theorem Moves.back {offset : Int} {r : Except OutOfBounds Tape} (h : t.Moves offset (.ok t'))
    (hr : t'.Moves (-offset) r) : r = .ok t := by
  obtain ⟨hcells, hpointer⟩ := h
  have hlt := t.pointer_lt
  have hsize : t'.size = t.size := congrArg Array.size hcells
  cases r with
  | ok t'' =>
      obtain ⟨hcells', hpointer'⟩ := hr
      have hpointer'' : t''.pointer = t.pointer := by omega
      exact congrArg Except.ok (Tape.ext (hcells'.trans hcells) hpointer'')
  | error e =>
      -- The way back ends where the tape stood before.
      obtain ⟨hattempted, houtside⟩ := hr
      unfold size at *
      omega

theorem exists_moves {offset : Int} (h : op.offset? = some offset) (t : Tape) :
    ∃ r, t.apply op = t.moved r ∧ t.Moves offset r := by
  cases op with
  | moveRight =>
      cases h
      exact ⟨_, rfl, t.moves_moveRight⟩
  | moveLeft =>
      cases h
      exact ⟨_, rfl, t.moves_moveLeft⟩
  | _ => cases h

theorem exists_setCurrent (h : op.offset? = none) (t : Tape) :
    ∃ value, t.apply op = (.ok (), t.setCurrent value) := by
  cases op with
  | increment => exact ⟨_, rfl⟩
  | decrement => exact ⟨_, rfl⟩
  | setCurrent value => exact ⟨value, rfl⟩
  | moveRight => cases h
  | moveLeft => cases h

theorem apply_eq_error (h : (t.apply op).1 = .error e) :
    (t.apply op).2 = t ∧ (e.attempted = -1 ∨ e.attempted = t.size) := by
  cases ho : op.offset? with
  | none =>
      obtain ⟨value, hvalue⟩ := exists_setCurrent ho t
      rw [hvalue] at h
      cases h
  | some offset =>
      obtain ⟨r, hr, hmoves⟩ := exists_moves ho t
      rw [hr] at h ⊢
      cases r with
      | ok t' => cases h
      | error e =>
          cases h
          exact ⟨rfl, hmoves.attempted_eq (offset?_eq_some ho)⟩

theorem apply_opposite (h : (t.apply op).1 = .ok ()) (ho : op.opposite? = some op') :
    (t.apply op).2.apply op' = (.ok (), t) := by
  obtain ⟨offset, hop, hop'⟩ := exists_offset_of_opposite ho
  obtain ⟨r, hr, hmoves⟩ := exists_moves hop t
  rw [hr] at h ⊢
  cases r with
  | ok t' =>
      obtain ⟨r', hr', hback⟩ := exists_moves hop' t'
      change t'.apply op' = (.ok (), t)
      rw [hr', hmoves.back hback, moved]
  | error e => cases h

theorem setCurrent_current (t : Tape) : t.setCurrent t.current = t := by
  simp [setCurrent, current]

theorem setCurrent_setCurrent (t : Tape) (value value' : UInt8) :
    (t.setCurrent value).setCurrent value' = t.setCurrent value' := by
  simp [setCurrent]

theorem after_eq_setCurrent {ops : List Operation} (h : ∀ op ∈ ops, op.offset? = none) :
    after apply t ops = t.setCurrent (after apply t ops).current := by
  induction ops generalizing t with
  | nil => exact t.setCurrent_current.symm
  | cons op ops ih =>
      obtain ⟨hop, hops⟩ := List.forall_mem_cons.1 h
      obtain ⟨value, hvalue⟩ := exists_setCurrent hop t
      rw [after, hvalue, ih hops, setCurrent_setCurrent, current_setCurrent]

theorem Represents.toNat_current_after (h : t.Represents m) (up down : Nat) :
    ((after Tape.apply t (upDown up down)).current.toNat : Int) =
      (t.current.toNat + up - down) % 256 := by
  have hcurrent := h.current_eq
  have hafter := (h.run (upDown up down)).2
  rw [Ideal.after_upDown] at hafter
  have hcounter := hafter.current_eq
  dsimp only [Ideal.adjust] at hcounter
  rw [if_pos rfl] at hcounter
  omega

theorem refines_ideal (length : Nat) (ops : List Operation) :
    let t := after apply (ofLength length) ops
    let m := after Ideal.apply (.ofLength length) ops
    answers apply (ofLength length) ops = answers Ideal.apply (.ofLength length) ops ∧
    (t.pointer : Int) = m.position ∧ t.size = max 1 length ∧
    (∀ i : Nat, i < t.size →
      ∃ c, t.cells[i]? = some c ∧ (c.toNat : Int) = m.counter i % 256) ∧
    (∀ op e, (t.apply op).1 = .error e ↔ (m.apply op).1 = .error e) ∧
    (∀ op e, (t.apply op).1 = .error e →
      (t.apply op).2 = t ∧ (e.attempted = -1 ∨ e.attempted = t.size)) ∧
    (∀ op op', op.opposite? = some op' → (t.apply op).1 = .ok () →
      (t.apply op).2.apply op' = (.ok (), t)) ∧
    ∀ up down, ∃ c : UInt8, after apply t (upDown up down) = t.setCurrent c ∧
      (c.toNat : Int) = (t.current.toNat + up - down) % 256 := by
  intro t m
  obtain ⟨hanswers, h⟩ := (represents_ofLength length).run ops
  have h : t.Represents m := h
  refine ⟨hanswers, h.position_eq.symm, ?_, ?_, ?_, ?_, ?_, ?_⟩
  · have hlength := h.length_eq.symm.trans (Ideal.length_after (.ofLength length) ops)
    dsimp only [Ideal.ofLength] at hlength
    omega
  · intro i hi
    have hc : t.cells[i]? = some t.cells[i] := Array.getElem?_eq_getElem hi
    exact ⟨t.cells[i], hc, h.cell_eq i _ hc⟩
  · intro op e
    rw [(h.apply op).1]
  · intro op e
    exact apply_eq_error
  · intro op op' ho ha
    exact apply_opposite ha ho
  · intro up down
    exact ⟨_, after_eq_setCurrent fun _ => offset?_of_mem_upDown, h.toNat_current_after up down⟩

example : answers apply (ofLength 0) [.moveRight, .decrement, .moveLeft] =
    [.error ⟨1⟩, .ok (), .error ⟨-1⟩] :=
  rfl

end TapeLang.Tape
