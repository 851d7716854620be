import TapeLang.Command.ProgramFile
import TapeLang.Program.Census
import TapeLang.Program.Listing

namespace TapeLang.Command

def textBytes (text : String) : List UInt8 :=
  text.toUTF8.toList

def censusText (p : Program) : String :=
  "  Bytes:          " ++ toString p.size ++ "\n" ++
  "  Commentary:     " ++ toString p.commentary ++ "\n" ++
  "  Max loop depth: " ++ toString p.loopDepth ++ "\n" ++
  String.join (Instruction.all.map fun i =>
    "  " ++ toString i.char ++ "  " ++
      String.ofList (List.leftpad 8 ' ' (Nat.toDigits 10 (p.histogramAt i))) ++ "\n")

def checkFile (files : Files) (file : String) (lenient stats : Bool) : Outcome :=
  match readValid files file (ValidationMode.ofLenient lenient) with
  | (.error e, notices) => ⟨[], notices, some e⟩
  | (.ok program, notices) =>
      ⟨textBytes (file ++ ": ok\n" ++ if stats then censusText program else ""), notices, none⟩

def lineEnd : UInt8 :=
  10

def stripFile (files : Files) (file : String) (listing : Bool) : Outcome :=
  match readProgram files file with
  | (.error e, notices) => ⟨[], notices, some e⟩
  | (.ok program, notices) =>
      ⟨if listing then textBytes program.listing else program.strip.toList ++ [lineEnd],
        notices, none⟩

end TapeLang.Command
