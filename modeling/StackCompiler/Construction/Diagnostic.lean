import StackCompiler.Stack
import StackCompiler.Tree.Label

/-!
What can go wrong while a tree is built: a misplaced action is noted and otherwise ignored, while
a failure ends the construction.
-/

namespace StackCompiler

/-- Why an action did nothing; the `action` is its name in a script. -/
inductive Diagnostic where
  | missingContext (action : String) (expected : NodeKind) (subject : String)
  | unexpectedTop (action : String) (expected : NodeKind) (found : Option NodeKind)
  | notNamed (found : Option NodeKind) (name : String)
  | cannotAttach (parent : Option NodeKind) (child : NodeKind)
  | notAnExpressionPart (kind : NodeKind)
  | nothingOpen (action : String)
  | defaultInsideCase
deriving Repr, DecidableEq

/-- Without a node there is nothing to name. -/
def describe : Option NodeKind → String
  | some kind => kind.name
  | none => "nothing"

def Diagnostic.message : Diagnostic → String
  | missingContext action expected subject =>
    s!"{action}: no enclosing {expected.name} found ({subject})"
  | unexpectedTop action expected found =>
    s!"{action}: expected an open {expected.name} on top, found {describe found}"
  | notNamed found name => s!"set-name: {describe found} carries no name ({name})"
  | cannotAttach parent child => s!"attach: {child.name} fits no free field of {describe parent}"
  | notAnExpressionPart kind =>
    s!"end-expression: {kind.name} cannot be spliced into an expression"
  | nothingOpen action => s!"{action}: no open node"
  | defaultInsideCase => "begin-switch-case: default marker inside an unfinished case"

/-- Why no tree came of a construction. -/
inductive BuildFailure where
  | underflow (cause : Underflow)
  | aborted
  | unfinished (openNodes : Nat)
  | notAProgram (kind : NodeKind)
  | empty
deriving Repr, DecidableEq

def BuildFailure.message : BuildFailure → String
  | underflow cause => s!"construction aborted: {cause.message}"
  | aborted => "construction was aborted by an earlier fatal error"
  | unfinished openNodes => s!"construction unfinished: {openNodes} nodes still open"
  | notAProgram kind => s!"root node is a {kind.name}, not a program"
  | empty => "nothing was built"

end StackCompiler
