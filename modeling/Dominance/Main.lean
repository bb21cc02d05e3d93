import Dominance.Command.Run

/-!
# The program

Connects the command line, the files and the standard output of the system to
`Dominance.Command.run`.
-/

namespace Dominance

/-- The text of a system error. -/
def reasonOf : IO.Error → String
  | .noFileOrDirectory _ code details => Command.systemReason details code.toNat
  | .permissionDenied _ code details => Command.systemReason details code.toNat
  | .inappropriateType _ code details => Command.systemReason details code.toNat
  | .invalidArgument _ code details => Command.systemReason details code.toNat
  | .resourceExhausted _ code details => Command.systemReason details code.toNat
  | e => toString e

/-- Tries to open a file. -/
def openFile (path : String) : IO Command.FileAccess := do
  match ← (IO.FS.realPath path).toBaseIO with
  | .error e => return .missing (reasonOf e)
  | .ok full =>
    if ← full.isDir then
      return .unreadable full.toString Command.FileError.isDirectory.message
    match ← (IO.FS.readBinFile full).toBaseIO with
    | .error e => return .sealed full.toString (reasonOf e)
    | .ok bytes => return .contents full.toString bytes

/-- The file that a command line asks for, if it is a request. -/
def requestedPath? (arguments : List String) : Option String :=
  match Command.readRequest arguments with
  | .ok { task := .chart path _, .. } => some path
  | .ok { task := .check path, .. } => some path
  | .ok { task := .solvable path _, .. } => some path
  | .ok { task := .solve path _ _ _, .. } => some path
  | _ => none

/-- Shows an event. -/
def showEvent : Command.Event → IO Unit
  | .output text => IO.print text
  | .record record => IO.println ("![" ++ record.level.title ++ "] " ++ record.message)

end Dominance

open Dominance in
/-- Runs the program. -/
def main (arguments : List String) : IO UInt32 := do
  let file ← match requestedPath? arguments with
    | some path => openFile path
    | none => pure (.missing "")
  let report := Command.run (fun _ => file) arguments
  report.events.forM showEvent
  return report.exitCode.toUInt32
