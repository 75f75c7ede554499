import StackCompiler.Construction.Basic

/-!
The actions of a construction as data, and what each of them answers.
-/

namespace StackCompiler

/-- Nodes that can be opened anywhere. -/
inductive Opening where
  | program | function | block | assignment | ret | loop | conditional | switch | expression
  | identifier
deriving Repr, DecidableEq

/-- All fields of a new node are free. -/
def Opening.node : Opening → Nat → Node
  | program, id => .program { id }
  | function, id => .function { id }
  | block, id => .block (.empty id)
  | assignment, id => .assignment { id }
  | ret, id => .ret { id }
  | loop, id => .loop (.empty id)
  | conditional, id => .conditional (.empty id)
  | switch, id => .switch (.empty id)
  | expression, id => .expression (.empty id)
  | identifier, id => .identifier { id }

inductive Action where
  | start (node : Opening)
  | startSwitchExit
  | startLoopExit
  | name (text : String)
  | parameter (name : String)
  | literal (text : String)
  | operator (symbol : String) (unary : Bool)
  | identifierToken
  | callToken
  | identifierToCall
  | endExpression
  | popExpression
  | beginCase (value : Expression)
  | announceDefault
  | endCase
  | attach
  | waypoint
  | rewind
  | reattach (nodes : List Node)

/-- What an action hands back to its caller. -/
inductive Reply where
  | nothing
  | expression (e : Expression)
  | nodes (taken : List Node)
  | failure (cause : BuildFailure)

namespace Construction

def perform (s : Construction) : Action → Reply × Construction
  | .start node => (.nothing, s.openNode node.node)
  | .startSwitchExit => (.nothing, s.openExit .switch)
  | .startLoopExit => (.nothing, s.openExit .loop)
  | .name text => (.nothing, s.setName text)
  | .parameter name => (.nothing, s.addParameter name)
  | .literal text => (.nothing, s.appendLiteral text)
  | .operator symbol unary => (.nothing, s.appendOperator symbol unary)
  | .identifierToken => (.nothing, s.appendTop "append-identifier-token" .identifier)
  | .callToken => (.nothing, s.appendTop "append-call" .call)
  | .identifierToCall => (.nothing, s.identifierToCall)
  | .endExpression =>
    match s.endExpression with
    | (.ok (), s) => (.nothing, s)
    | (.error cause, s) => (.failure cause, s)
  | .popExpression =>
    match s.popExpression with
    | (some e, s) => (.expression e, s)
    | (none, s) => (.nothing, s)
  | .beginCase value => (.nothing, s.beginCase value)
  | .announceDefault => (.nothing, s.announceDefault)
  | .endCase => (.nothing, s.endCase)
  | .attach => (.nothing, s.attach)
  | .waypoint => (.nothing, s.waypoint)
  | .rewind =>
    match s.rewind with
    | (.ok taken, s) => (.nodes taken, s)
    | (.error cause, s) => (.failure cause, s)
  | .reattach nodes => (.nothing, s.reattach nodes)

end Construction

end StackCompiler
