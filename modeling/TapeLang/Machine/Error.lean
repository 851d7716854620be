import TapeLang.Stream.Fault

namespace TapeLang

inductive ExecutionError where
  | transfer (position : Nat) (error : TransferError)
  | outOfRange (position : Nat) (attempted : Int) (tapeLength : Nat)
  | unmatchedDelimiter (position : Nat)
  | stepLimitExceeded (limit : UInt64)
  deriving DecidableEq, Repr

namespace ExecutionError

def position? : ExecutionError → Option Nat
  | .transfer position _ => some position
  | .outOfRange position _ _ => some position
  | .unmatchedDelimiter position => some position
  | .stepLimitExceeded _ => none

def message : ExecutionError → String
  | .transfer position error =>
      "instruction at position " ++ toString position ++ ": " ++ error.message
  | .outOfRange position attempted tapeLength =>
      "instruction at position " ++ toString position ++ " moved the data pointer to " ++
        toString attempted ++ ", outside a tape of " ++ toString tapeLength ++ " cells"
  | .unmatchedDelimiter position =>
      "no matching delimiter for the loop boundary at position " ++ toString position
  | .stepLimitExceeded limit =>
      "step limit of " ++ toString limit ++ " reached before the program halted"

def causes : ExecutionError → List String
  | .transfer _ error => error.message :: error.causes
  | _ => []

end ExecutionError

end TapeLang
