import StackCompiler.Construction.Action
import StackCompiler.Text.Split

/-!
Scripts record the actions of a construction, one to a line. Besides the plain actions a line may
give a whole expression by its words, or hold nodes back and return them. A number sign outside
quotes starts a comment.
-/

namespace StackCompiler.Script

/-- A line that is not blank: where it stands, its first word and what follows it. -/
structure Line where
  number : Nat
  action : String
  argument : Option String
deriving Repr, DecidableEq

/-- Cuts at the first number sign outside quotes; an open quote lasts to the end of the line. -/
def stripComment : (quote : Option Char) → List Char → List Char
  | _, [] => []
  | some q, c :: cs => c :: stripComment (if c = q then none else some q) cs
  | none, c :: cs =>
    if c = '#' then []
    else c :: stripComment (if c = '"' ∨ c = '\'' then some c else none) cs

def nonempty? (cs : List Char) : Option String :=
  if cs.isEmpty then none else some (String.ofList cs)

def Line.ofChars? (number : Nat) (cs : List Char) : Option Line :=
  let text := Text.trim (stripComment none cs)
  if text.isEmpty then none
  else
    let (action, rest) := Text.splitFirst text
    some ⟨number, String.ofList action, rest.bind fun r => nonempty? (Text.trim r)⟩

/-- Blank lines count for the numbering, which starts at one. -/
def lines (source : String) : List Line :=
  (Text.lines source.toList).zipIdx.filterMap fun (cs, i) => Line.ofChars? (i + 1) cs

inductive Directive where
  | perform (action : Action)
  | expression (words : List String)
  | caseValue (words : List String)
  | hold
  | release

/-- What is wrong with a line by itself. -/
inductive LineFault where
  | unknownAction
  | missingArgument
deriving Repr, DecidableEq

def wordsOf (text : String) : List String := (Text.fields text.toList).map String.ofList

/-- The symbol ends at the first blank, and only the word `unary` after it counts. -/
def operatorAction (argument : String) : Action :=
  match Text.splitFirst argument.toList with
  | (symbol, some flag) => .operator (String.ofList symbol) (Text.trim flag == "unary".toList)
  | (symbol, none) => .operator (String.ofList symbol) false

/-- An argument that an action has no use for is ignored. -/
def Line.directive (l : Line) : Except LineFault Directive :=
  let withArgument (f : String → Directive) : Except LineFault Directive :=
    match l.argument with
    | some argument => .ok (f argument)
    | none => .error .missingArgument
  match l.action with
  | "begin-program" => .ok (.perform (.start .program))
  | "begin-function" => .ok (.perform (.start .function))
  | "begin-block" | "begin-switch-block" => .ok (.perform (.start .block))
  | "begin-assignment" => .ok (.perform (.start .assignment))
  | "begin-return" => .ok (.perform (.start .ret))
  | "begin-break" => .ok (.perform .startSwitchExit)
  | "begin-loop-exit" => .ok (.perform .startLoopExit)
  | "begin-loop" => .ok (.perform (.start .loop))
  | "begin-conditional" => .ok (.perform (.start .conditional))
  | "begin-switch" => .ok (.perform (.start .switch))
  | "begin-expression" => .ok (.perform (.start .expression))
  | "begin-identifier" => .ok (.perform (.start .identifier))
  | "end-expression" => .ok (.perform .endExpression)
  | "literal" => withArgument fun text => .perform (.literal text)
  | "operator" => withArgument fun text => .perform (operatorAction text)
  | "identifier-token" => .ok (.perform .identifierToken)
  | "call" => .ok (.perform .callToken)
  | "identifier-to-call" => .ok (.perform .identifierToCall)
  | "case" =>
    match l.argument with
    | some text => .ok (.caseValue (wordsOf text))
    | none => .ok (.perform .announceDefault)
  | "end-case" => .ok (.perform .endCase)
  | "name" => withArgument fun text => .perform (.name text)
  | "param" => withArgument fun text => .perform (.parameter text)
  | "attach" => .ok (.perform .attach)
  | "waypoint" => .ok (.perform .waypoint)
  | "rewind" => .ok .hold
  | "reattach" => .ok .release
  | "expr" => withArgument fun text => .expression (wordsOf text)
  | _ => .error .unknownAction

/-- Symbols that stand for operators among the words of an expression. -/
def symbols : List String :=
  ["==", "!=", ">", "<", ">=", "<=", "+", "-", "*", "/", "^", "%", "!", "neg", "(", ")"]

/-- A tilde is a minus before its operand, and any other word is an operand. -/
def wordAction (word : String) : Action :=
  if word = "~" then .operator "-" true
  else if word ∈ symbols then .operator word false
  else .literal word

end StackCompiler.Script
