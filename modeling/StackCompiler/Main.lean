import StackCompiler.CommandLine.Command

/-!
The command with the files and streams of the system.
-/

namespace StackCompiler.CommandLine

open Assembly (Code)
open Machine (Outcome RunError State Value)

/-- Some calls give the number of an error negated. -/
def errorNumber (code : UInt32) : UInt32 := min code (0 - code)

def FileError.ofSystem (error : IO.Error) : FileError :=
  let number := match error with
    | .inappropriateType _ code _ => errorNumber code
    | .invalidArgument _ code _ => errorNumber code
    | _ => 0
  match error, number with
  | .noFileOrDirectory .., _ => .missing
  | _, 20 => .notDirectory
  | _, 21 => .isDirectory
  | _, 36 => .nameTooLong
  | error, _ => .other (toString error)

def readSystemFile (path : String) : IO (Except FileError String) := do
  try
    match String.fromUTF8? (← IO.FS.readBinFile path) with
    | some text => return .ok text
    | none => return .error .undecodable
  catch error => return .error (.ofSystem error)

def writeSystemFile (path content : String) : IO (Except FileError Unit) := do
  try
    IO.FS.writeFile path content
    return .ok ()
  catch error => return .error (.ofSystem error)

/-- The next line of standard input, unless its bytes are no text. -/
def readSystemLine : IO (Option String) := do
  try
    return some (← (← IO.getStdin).getLine)
  catch _ => return none

/-- Prints what the machine has printed since the last step. -/
def flushOutput (s : State) : IO State := do
  if s.console.output != "" then
    IO.print s.console.output
    (← IO.getStdout).flush
  return { s with console := { s.console with output := "" } }

/-- A line is fetched only when the machine is about to read one. -/
def supplyInput (code : Code) (s : State) : IO State := do
  match code[s.position]? with
  | some (.read _) => return { s with console := { s.console with input := [← readSystemLine] } }
  | _ => return s

partial def runOnSystem (code : Code) : Outcome → IO (Except RunError Value)
  | .halted result console => do
    IO.print console.output
    return result
  | .running s => do
    let s ← supplyInput code (← flushOutput s)
    runOnSystem code (Machine.step code s)

def systemHost : Host IO where
  read := readSystemFile
  write := writeSystemFile
  print := IO.print
  complain := IO.eprint
  execute code := runOnSystem code (Machine.start code {})

end StackCompiler.CommandLine

def main (args : List String) : IO UInt32 :=
  StackCompiler.CommandLine.invoke StackCompiler.CommandLine.systemHost args
