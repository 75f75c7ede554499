import StackCompiler.CommandLine.Directory

/-!
The command with files in memory, its input given beforehand and all that it prints collected.
-/

namespace StackCompiler.CommandLine

open Assembly (Code)
open Machine (Console RunError Value)

structure Transcript where
  directory : Directory := {}
  input : List (Option String) := []
  output : String := ""
  complaints : String := ""

namespace Transcript

/-- What a machine prints stands between what the command prints before and after. -/
def execute (run : Code → Console → Except RunError Value × Console) (code : Code) :
    StateM Transcript (Except RunError Value) := do
  let t ← get
  let (result, console) := run code { input := t.input }
  set { t with input := console.input, output := t.output ++ console.output }
  return result

def write (path text : String) : StateM Transcript (Except FileError Unit) := do
  let t ← get
  match t.directory.write path text with
  | .ok directory =>
    set { t with directory }
    return .ok ()
  | .error cause => return .error cause

/-- How code is run is left to the caller, since a run need not end. -/
def host (run : Code → Console → Except RunError Value × Console) : Host (StateM Transcript) where
  read path := do return (← get).directory.read path
  write := write
  print text := modify fun t => { t with output := t.output ++ text }
  complain text := modify fun t => { t with complaints := t.complaints ++ text }
  execute := execute run

end Transcript

end StackCompiler.CommandLine
