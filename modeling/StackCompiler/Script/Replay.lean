import StackCompiler.Script.Directive

/-!
Replaying a script on a fresh construction.
-/

namespace StackCompiler.Script

/-- Nodes that were taken from the construction wait until they are put back; taking nodes again
forgets those that wait. -/
structure State where
  construction : Construction := {}
  held : List Node := []

/-- Opens an expression, appends the words and ends it. -/
def writeExpression (s : Construction) (words : List String) :
    Except BuildFailure Construction :=
  let opened := s.openNode (Opening.node .expression)
  let written := words.foldl (fun s word => (s.perform (wordAction word)).2) opened
  match written.endExpression with
  | (.ok (), s) => .ok s
  | (.error cause, _) => .error cause

namespace State

def step (st : State) : Directive → Except BuildFailure State
  | .perform action =>
    match st.construction.perform action with
    | (.failure cause, _) => .error cause
    | (_, construction) => .ok { st with construction }
  | .expression words => do
    let construction ← writeExpression st.construction words
    return { st with construction }
  | .caseValue words => do
    let construction ← writeExpression st.construction words
    match construction.popExpression with
    | (some value, rest) => return { st with construction := rest.beginCase value }
    | (none, rest) => return { st with construction := rest }
  | .hold =>
    match st.construction.rewind with
    | (.ok held, construction) => .ok { construction, held }
    | (.error cause, _) => .error cause
  | .release => .ok { construction := st.construction.reattach st.held, held := [] }

end State

/-- Why a script gives no program. -/
inductive Failure where
  | unknownAction (line : Nat) (action : String)
  | missingArgument (line : Nat) (action : String)
  | build (line : Nat) (cause : BuildFailure)
  | finish (cause : BuildFailure)
deriving Repr, DecidableEq

def Failure.message : Failure → String
  | unknownAction line action => s!"line {line}: unknown action " ++ "`" ++ action ++ "`"
  | missingArgument line action => s!"line {line}: " ++ "`" ++ action ++ "` needs an argument"
  | build line cause => s!"line {line}: {cause.message}"
  | finish cause => cause.message

def State.line (st : State) (l : Line) : Except Failure State :=
  match l.directive with
  | .error .unknownAction => .error (.unknownAction l.number l.action)
  | .error .missingArgument => .error (.missingArgument l.number l.action)
  | .ok directive => (st.step directive).mapError (.build l.number)

/-- What came of a script: the program and the remarks made on the way. -/
structure Built where
  program : Program
  diagnostics : List Diagnostic

def replay (source : String) : Except Failure Built := do
  let st ← (lines source).foldlM State.line {}
  let program ← st.construction.finish.mapError .finish
  return { program, diagnostics := st.construction.diagnostics }

end StackCompiler.Script
