import TapeLang.Command.Threshold

namespace TapeLang.Command

inductive Notice where
  | event (event : Event)
  | line (text : String)
  deriving DecidableEq, Repr

structure Failure where
  message : String
  causes : List String
  deriving DecidableEq, Repr

structure Outcome where
  output : List UInt8
  notices : List Notice
  failure : Option Failure
  deriving DecidableEq, Repr

def numbered (causes : List String) : List String :=
  causes.zipIdx.map fun (cause, i) =>
    String.ofList (List.leftpad 5 ' ' (Nat.toDigits 10 i)) ++ ": " ++ cause

def Failure.texts (f : Failure) : List String :=
  ("Error: " ++ f.message) ::
    match f.causes with
    | [] => []
    | [cause] => ["", "Caused by:", "    " ++ cause]
    | causes => "" :: "Caused by:" :: numbered causes

def logLine (e : Event) : String :=
  " ".intercalate (e.level.label :: e.message :: e.fields.map fun (name, text) => name ++ "=" ++ text)

def Notice.texts (t : Threshold) : Notice → List String
  | .event e => if t.admits e.level then [logLine e] else []
  | .line text => [text]

/-- A line ends with a line feed; a carriage return just before it belongs to the line end. -/
def lineOf : List Char → String
  | '\r' :: line => String.ofList line.reverse
  | line => String.ofList line.reverse

/-- `line` is what has been read of the current line, last character first. -/
def linesOf (line : List Char) : List Char → List String
  | [] => [lineOf line]
  | '\n' :: rest => lineOf line :: linesOf [] rest
  | c :: rest => linesOf (c :: line) rest

namespace Outcome

def exitCode (o : Outcome) : Nat :=
  if o.failure.isSome then 1 else 0

def errorTexts (o : Outcome) (t : Threshold) : List String :=
  o.notices.flatMap (Notice.texts t) ++ (o.failure.map Failure.texts).getD []

/-- The lines on standard error: a file name may hold line ends. -/
def errorLines (o : Outcome) (t : Threshold) : List String :=
  (o.errorTexts t).flatMap fun text => linesOf [] text.toList

end Outcome

end TapeLang.Command
