import StackCompiler.Assembly.OfProgram
import StackCompiler.Assembly.Reader
import StackCompiler.CommandLine.Options
import StackCompiler.Listing.OfProgram
import StackCompiler.Machine.Run
import StackCompiler.Script.Replay

/-!
What the command does, in terms of the few things that it asks of its surroundings.
-/

namespace StackCompiler.CommandLine

open Assembly (Code)
open Machine (RunError Value)

/-- Why a file cannot be read or written. -/
inductive FileError where
  | missing
  | isDirectory
  | notDirectory
  | nameTooLong
  | undecodable
  | other (message : String)
deriving Repr, DecidableEq

def FileError.message : FileError → String
  | missing => "No such file or directory (os error 2)"
  | isDirectory => "Is a directory (os error 21)"
  | notDirectory => "Not a directory (os error 20)"
  | nameTooLong => "File name too long (os error 36)"
  | undecodable => "stream did not contain valid UTF-8"
  | other message => message

/-- Files, the two streams for text, and a machine with its own input. -/
structure Host (m : Type → Type) where
  read : String → m (Except FileError String)
  write : (path content : String) → m (Except FileError Unit)
  print : String → m Unit
  complain : String → m Unit
  execute : Code → m (Except RunError Value)

inductive Failure where
  | missingFile (path : String)
  | noInput
  | script (cause : Script.Failure)
  | assembly (cause : Assembly.LineFault)
  | runtime (cause : RunError)
  | file (cause : FileError)

def Failure.message : Failure → String
  | missingFile path => "File " ++ path ++ " does not exist"
  | noInput => "no input: pass a SCRIPT or --exec FILE"
  | script cause => "script error: " ++ cause.message
  | assembly cause => "assembly error: " ++ cause.message
  | runtime cause => "runtime error: " ++ cause.message
  | file cause => "io error: " ++ cause.message

/-- Both listings are printed if nothing else is asked for. -/
def Options.printsBoth (o : Options) : Bool := !o.listing && !o.assembly && !o.run

variable {m : Type → Type} [Monad m] (host : Host m)

/-- A file that is not there is reported by its name. -/
def readSource (path : String) : ExceptT Failure m String := do
  match ← host.read path with
  | .ok text => return text
  | .error .missing => throw (.missingFile path)
  | .error cause => throw (.file cause)

def execute (code : Code) : ExceptT Failure m Unit := do
  match ← host.execute code with
  | .ok v => host.print ("Result: " ++ v.text ++ "\n")
  | .error cause => throw (.runtime cause)

def executeFile (path : String) : ExceptT Failure m Unit := do
  match Code.ofText (← readSource host path) with
  | .ok code => execute host code
  | .error fault => throw (.assembly fault)

def printListing (o : Options) (p : Program) : ExceptT Failure m Unit := do
  if o.printsBoth then host.print "// RPN\n"
  if o.listing || o.printsBoth then host.print (Listing.text (Listing.ofProgram p))

/-- Assembly that goes to a file is not printed. -/
def deliver (o : Options) (code : Code) : ExceptT Failure m Unit := do
  match o.output with
  | some path =>
    match ← host.write path code.text with
    | .ok () => return
    | .error cause => throw (.file cause)
  | none =>
    if o.printsBoth then host.print "// ASM\n"
    if o.assembly || o.printsBoth then host.print code.text

/-- Compiles a script, delivers what is asked for and runs the code if that is asked for too. -/
def compileFile (o : Options) (path : String) : ExceptT Failure m Unit := do
  match Script.replay (← readSource host path) with
  | .error cause => throw (.script cause)
  | .ok built =>
    for diagnostic in built.diagnostics do
      host.complain ("warning: " ++ diagnostic.message ++ "\n")
    printListing host o built.program
    let code := Assembly.ofProgram built.program
    if code.hasUnknown then host.complain "warning: assembly contains UNKNOWN operators\n"
    deliver host o code
    if o.run then execute host code

def perform (o : Options) : ExceptT Failure m Unit :=
  match o.exec, o.script with
  | some path, _ => executeFile host path
  | none, some path => compileFile host o path
  | none, none => throw .noInput

def usage : String :=
  "Usage: stack-compiler [--rpn] [--asm] [-o FILE] [--run] [SCRIPT]\n" ++
    "       stack-compiler --exec FILE\n"

/-- The exit code: zero for success, one for a failure and two for arguments without sense. -/
def invoke (args : List String) : m UInt32 := do
  match parse args with
  | .error misuse =>
    host.complain ("error: " ++ misuse.message ++ "\n" ++ usage)
    return 2
  | .ok .help =>
    host.print usage
    return 0
  | .ok .version =>
    host.print "stack-compiler 1.0\n"
    return 0
  | .ok (.perform o) =>
    match ← (perform host o).run with
    | .ok () => return 0
    | .error failure =>
      host.complain ("Error: " ++ failure.message ++ "\n")
      return 1

end StackCompiler.CommandLine
