import TapeLang.Machine.Config

namespace TapeLang.Command

inductive OptionName where
  | verbose
  | input
  | tapeLength
  | stepLimit
  | lenient
  | stats
  | listing
  deriving DecidableEq, Repr

namespace OptionName

def ofText? : String → Option OptionName
  | "verbose" => some .verbose
  | "input" => some .input
  | "tape-length" => some .tapeLength
  | "step-limit" => some .stepLimit
  | "lenient" => some .lenient
  | "stats" => some .stats
  | "listing" => some .listing
  | _ => none

def takesValue : OptionName → Bool
  | .input | .tapeLength | .stepLimit => true
  | .verbose | .lenient | .stats | .listing => false

end OptionName

inductive Verb where
  | run
  | check
  | strip
  | batch
  deriving DecidableEq, Repr

namespace Verb

def ofText? : String → Option Verb
  | "run" => some .run
  | "check" => some .check
  | "strip" => some .strip
  | "batch" => some .batch
  | _ => none

def options : Verb → List OptionName
  | .run => [.verbose, .input, .tapeLength, .stepLimit, .lenient, .stats]
  | .check => [.verbose, .lenient, .stats]
  | .strip => [.verbose, .listing]
  | .batch => [.verbose, .tapeLength, .stepLimit, .lenient]

end Verb

/-- A lone dash is a word. -/
inductive Token where
  | word (text : String)
  | separator
  | option (name : OptionName) (value : Option String)
  | unknown
  deriving DecidableEq, Repr

namespace Token

def ofNamed (text value : List Char) : Token :=
  match OptionName.ofText? (String.ofList text), value with
  | none, _ => .unknown
  | some name, '=' :: value => .option name (some (String.ofList value))
  | some name, _ => .option name none

def ofText (text : String) : Token :=
  match text.toList with
  | ['-', '-'] => .separator
  | '-' :: '-' :: rest => ofNamed (rest.takeWhile (· ≠ '=')) (rest.dropWhile (· ≠ '='))
  | ['-', 'v'] => .option .verbose none
  | ['-'] => .word text
  | '-' :: _ => .unknown
  | _ => .word text

end Token

structure Collected where
  words : List String
  options : List (OptionName × String)
  deriving DecidableEq, Repr

namespace Collected

def empty : Collected :=
  ⟨[], []⟩

def has (c : Collected) (name : OptionName) : Bool :=
  c.options.any (·.1 = name)

def value? (c : Collected) (name : OptionName) : Option String :=
  (c.options.find? (·.1 = name)).map (·.2)

def addOption (c : Collected) (name : OptionName) (value : String) : Option Collected :=
  if c.has name then none else some { c with options := (name, value) :: c.options }

def addWords (c : Collected) (words : List String) : Collected :=
  { c with words := words.reverse ++ c.words }

end Collected

/-- A value follows its option as the next argument, unless that is an option itself, or after
an equals sign. -/
def collect (allowed : List OptionName) (c : Collected) : List String → Option Collected
  | [] => some c
  | text :: rest =>
      match Token.ofText text with
      | .unknown => none
      | .separator => some (c.addWords rest)
      | .word word => collect allowed (c.addWords [word]) rest
      | .option name value =>
          if name ∉ allowed then none
          else
            match name.takesValue, value, rest with
            | false, none, rest => c.addOption name "" >>= (collect allowed · rest)
            | true, some value, rest => c.addOption name value >>= (collect allowed · rest)
            | true, none, next :: rest =>
                if Token.ofText next = .word next then
                  c.addOption name next >>= (collect allowed · rest)
                else none
            | _, _, _ => none

def number? (text : String) : Option Nat :=
  let digits := match text.toList with
    | '+' :: digits => digits
    | digits => digits
  if digits ≠ [] ∧ digits.all Char.isDigit then
    some (Nat.ofDigitChars 10 digits 0)
  else none

def word64? (text : String) : Option UInt64 :=
  (number? text).bind fun n => if n < UInt64.size then some n.toUInt64 else none

structure EngineOptions where
  tapeLength : Nat
  stepLimit : Option UInt64
  lenient : Bool
  deriving DecidableEq, Repr

def EngineOptions.config (e : EngineOptions) : Config :=
  ⟨e.tapeLength, e.stepLimit, ValidationMode.ofLenient e.lenient⟩

inductive Action where
  | run (file : String) (input : Option String) (engine : EngineOptions) (stats : Bool)
  | check (file : String) (lenient stats : Bool)
  | strip (file : String) (listing : Bool)
  | batch (files : List String) (engine : EngineOptions)
  deriving DecidableEq, Repr

def Action.files : Action → List String
  | .run file input _ _ => file :: input.toList
  | .check file _ _ => [file]
  | .strip file _ => [file]
  | .batch files _ => files

structure Invocation where
  verbose : Bool
  action : Action
  deriving DecidableEq, Repr

namespace Collected

def read {α : Type} (c : Collected) (name : OptionName) (read : String → Option α) :
    Option (Option α) :=
  match c.value? name with
  | none => some none
  | some text => (read text).map some

def files? (c : Collected) : Option (List String) :=
  if "" ∈ c.words then none else some c.words.reverse

def file? (c : Collected) : Option String :=
  match c.files? with
  | some [file] => some file
  | _ => none

def path? (text : String) : Option String :=
  if text = "" then none else some text

def engine? (c : Collected) : Option EngineOptions := do
  let tapeLength ← c.read .tapeLength word64?
  let stepLimit ← c.read .stepLimit word64?
  return ⟨(tapeLength.map UInt64.toNat).getD Tape.defaultLength, stepLimit, c.has .lenient⟩

def action? (c : Collected) : Verb → Option Action
  | .run => do
      return .run (← c.file?) (← c.read .input path?) (← c.engine?) (c.has .stats)
  | .check => do
      return .check (← c.file?) (c.has .lenient) (c.has .stats)
  | .strip => do
      return .strip (← c.file?) (c.has .listing)
  | .batch => do
      let files ← c.files?
      if files = [] then none else return .batch files (← c.engine?)

end Collected

def Invocation.ofVerb? (verbose : Bool) : List String → Option Invocation
  | [] => none
  | text :: rest => do
      let verb ← Verb.ofText? text
      let c ← collect verb.options .empty rest
      return ⟨verbose || c.has .verbose, ← c.action? verb⟩

/-- The verbose option may stand once before the verb and once after it. -/
def Invocation.ofArguments? : List String → Option Invocation
  | [] => none
  | text :: rest =>
      if Token.ofText text = .option .verbose none then ofVerb? true rest
      else ofVerb? false (text :: rest)

end TapeLang.Command
