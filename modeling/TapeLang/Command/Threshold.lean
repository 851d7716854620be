import TapeLang.Event

namespace TapeLang.Command

abbrev Threshold := Option Level

namespace Threshold

def admits (t : Threshold) (l : Level) : Bool :=
  match t with
  | none => false
  | some least => least.severity ≤ l.severity

def ofNumber? : Nat → Option Threshold
  | 0 => some none
  | 1 => some (some .error)
  | 2 => some (some .warn)
  | 3 => some (some .info)
  | 4 => some (some .debug)
  | 5 => some (some .trace)
  | _ => none

def ofWord? (word : String) : Option Threshold :=
  match word.toLower with
  | "off" => some none
  | "error" => some (some .error)
  | "warn" => some (some .warn)
  | "info" => some (some .info)
  | "debug" => some (some .debug)
  | "trace" => some (some .trace)
  | _ =>
      if word ≠ "" ∧ word.toList.all Char.isDigit then
        ofNumber? (Nat.ofDigitChars 10 word.toList 0)
      else none

def isDirective (word : String) : Bool :=
  match word.toList.dropWhile Char.isWhitespace with
  | [] => false
  | c :: _ => c.isAlphanum || 128 ≤ c.toNat || c = '-' || c = ':' || c = '_'

/-- The last level counts. Directives that name something else admit nothing, and an empty
list admits errors. -/
def ofDirectives? (text : String) : Option Threshold :=
  let words := (text.splitOn ",").filter (· ≠ "")
  if words = [] then some (some .error)
  else if words.all isDirective then some ((words.filterMap ofWord?).getLast?.getD none)
  else none

def select (directives : Option String) (verbose : Bool) : Threshold :=
  (directives.bind ofDirectives?).getD (some (if verbose then .debug else .warn))

end Threshold

end TapeLang.Command
