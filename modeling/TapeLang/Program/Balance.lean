import TapeLang.Program.Basic

namespace TapeLang

inductive ValidationMode where
  | strict
  | lenient
  deriving DecidableEq, Repr

def ValidationMode.ofLenient (lenient : Bool) : ValidationMode :=
  if lenient then .lenient else .strict

inductive ValidationError where
  | closedBeforeOpen (position : Nat)
  | unclosed (count : Nat)
  deriving DecidableEq, Repr

def ValidationError.message : ValidationError → String
  | .closedBeforeOpen position =>
      "invalid code: ] is before [ (position " ++ toString position ++ ")"
  | .unclosed count => "invalid code: mismatched [] (" ++ toString count ++ " unclosed)"

namespace Program

/-- The number of loops open after the bytes, when `depth` are open before them; or the position
of the first loop end that closes nothing. -/
def openLoops (depth position : Nat) : List UInt8 → Except Nat Nat
  | [] => .ok depth
  | b :: rest =>
      if b = Instruction.loopStart.byte then openLoops (depth + 1) (position + 1) rest
      else if b = Instruction.loopEnd.byte then
        if depth = 0 then .error position
        else openLoops (depth - 1) (position + 1) rest
      else openLoops depth (position + 1) rest

theorem openLoops_append (depth position : Nat) (a b : List UInt8) :
    openLoops depth position (a ++ b) =
      match openLoops depth position a with
      | .error q => .error q
      | .ok d => openLoops d (position + a.length) b := by
  induction a generalizing depth position with
  | nil => simp [openLoops]
  | cons x a ih =>
      simp only [List.cons_append, openLoops, List.length_cons]
      have h : position + (a.length + 1) = position + 1 + a.length := by omega
      split
      · rw [ih, h]
      · split
        · split
          · rfl
          · rw [ih, h]
        · rw [ih, h]

def validate (p : Program) (mode : ValidationMode) : Except ValidationError Unit :=
  match openLoops 0 0 p.toList with
  | .error position => .error (.closedBeforeOpen position)
  | .ok count => if 0 < count ∧ mode = .strict then .error (.unclosed count) else .ok ()

theorem validate_lenient_of_strict {p : Program} (h : p.validate .strict = .ok ()) :
    p.validate .lenient = .ok () := by
  unfold validate at *
  cases hp : openLoops 0 0 p.toList with
  | error position => simp [hp] at h
  | ok count => simp

end Program

end TapeLang
