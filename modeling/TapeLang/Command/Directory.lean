import TapeLang.Stream.Source

namespace TapeLang.Command

abbrev Files := String → Except Fault Source

def missing : Fault :=
  ⟨.other "NotFound", "No such file or directory (os error 2)"⟩

def notDirectory : Fault :=
  ⟨.other "NotADirectory", "Not a directory (os error 20)"⟩

def isDirectory : Fault :=
  ⟨.other "IsADirectory", "Is a directory (os error 21)"⟩

def nameTooLong : Fault :=
  ⟨.other "InvalidFilename", "File name too long (os error 36)"⟩

/-- `name` is what has been read of the current component, last character first. -/
def components (name : List Char) : List Char → List String
  | [] => [String.ofList name.reverse]
  | '/' :: rest => String.ofList name.reverse :: components [] rest
  | c :: rest => components (c :: name) rest

abbrev Trail := List String

def Trail.ofPath (path : String) : Trail :=
  ((components [] path.toList).filter fun name => name ≠ "" ∧ name ≠ ".").reverse

/-- Where a path has led so far: to a directory, the outermost one included, to somewhere outside
that one, or to a file. -/
inductive Place where
  | within (trail : Trail)
  | outside
  | file (bytes : List UInt8)
  deriving DecidableEq, Repr

structure Directory where
  entries : List (Trail × Option (List UInt8))
  deriving DecidableEq, Repr

namespace Directory

def ofNames (names : List (String × Option (List UInt8))) : Directory :=
  ⟨names.map fun (path, content) => (Trail.ofPath path, content)⟩

def find (d : Directory) (trail : Trail) : Except Fault Place :=
  match d.entries.lookup trail with
  | some (some bytes) => .ok (.file bytes)
  | some none => .ok (.within trail)
  | none => if d.entries.any (fun e => trail <:+ e.1) then .ok (.within trail) else .error missing

def maxNameBytes : Nat :=
  255

def maxPathBytes : Nat :=
  4095

/-- A file has no components below it, not even an empty one or a dot. -/
def enter (d : Directory) (place : Place) (name : String) : Except Fault Place :=
  match place with
  | .file _ => .error notDirectory
  | .within trail =>
      if name = "" ∨ name = "." then .ok place
      else if name = ".." then .ok (match trail with | [] => .outside | _ :: trail => .within trail)
      else if maxNameBytes < name.utf8ByteSize then .error nameTooLong
      else d.find (name :: trail)
  | .outside =>
      if name = "" ∨ name = "." ∨ name = ".." then .ok place
      else if maxNameBytes < name.utf8ByteSize then .error nameTooLong
      else .error missing

def walk (d : Directory) (path : String) : Except Fault Place :=
  if maxPathBytes < path.utf8ByteSize then .error nameTooLong
  else
    match path.toList with
    | '/' :: rest => (components [] rest).foldlM d.enter .outside
    | rest => (components [] rest).foldlM d.enter (.within [])

/-- A directory opens like a file, but its first read fails. -/
def files (d : Directory) : Files := fun path =>
  match d.walk path with
  | .error fault => .error fault
  | .ok (.file bytes) => .ok (.ofBytes bytes)
  | .ok _ => .ok (.ofEvents [.fail isDirectory])

end Directory

end TapeLang.Command
