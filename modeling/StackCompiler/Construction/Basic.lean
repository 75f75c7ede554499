import StackCompiler.Construction.Diagnostic
import StackCompiler.Trail
import StackCompiler.Tree.Node

/-!
Building a tree from a linear stream of actions. Open nodes lie on a trail, the innermost on top;
actions open nodes, change open ones or move a finished node into a field of its parent. An action
that fits nowhere is reported and leaves the nodes alone; only going back to a waypoint whose nodes
are gone ends the construction.
-/

namespace StackCompiler

/-- Every node and every token with an identity takes the next number. -/
structure Construction where
  nextId : Nat := 0
  nodes : Trail Node := {}
  diagnostics : List Diagnostic := []
  aborted : Bool := false

/-- There is nothing that the exit could leave. -/
def ExitKind.misplaced : ExitKind → Diagnostic
  | switch => .missingContext "begin-break" .switch "break"
  | loop => .missingContext "begin-loop-exit" .loop "exit"

namespace Construction

/-- Open nodes, the innermost first. -/
def items (s : Construction) : List Node := s.nodes.values.items

def withItems (s : Construction) (items : List Node) : Construction :=
  { s with nodes := { s.nodes with values := ⟨items⟩ } }

def depth (s : Construction) : Nat := s.nodes.depth

def current? (s : Construction) : Option Node := s.items.head?

def report (s : Construction) (d : Diagnostic) : Construction :=
  { s with diagnostics := s.diagnostics ++ [d] }

/-- Numbers the node and opens it. -/
def openNode (s : Construction) (node : Nat → Node) : Construction :=
  { s with nextId := s.nextId + 1, nodes := s.nodes.push (node s.nextId) }

def unexpectedTop (s : Construction) (action : String) (expected : NodeKind) : Construction :=
  s.report (.unexpectedTop action expected (s.current?.map Node.kind))

/-- The nearest open node that can be left is the target; without one the exit is reported, but
opened all the same. -/
def openExit (s : Construction) (exit : ExitKind) : Construction :=
  let target := (s.items.find? (·.kind == exit.left)).map Node.id
  let noted := if target.isNone then s.report exit.misplaced else s
  noted.openNode fun id => exit.node id target

/-- Identifiers, assignments, loops and functions have a name. -/
def renamed? (name : String) : Node → Option Node
  | .identifier i => some (.identifier { i with name })
  | .assignment a => some (.assignment { a with target := name })
  | .loop l => some (.loop { l with var := name })
  | .function f => some (.function { f with name })
  | _ => none

def setName (s : Construction) (name : String) : Construction :=
  match s.items with
  | [] => s.report (.notNamed none name)
  | top :: below =>
    match renamed? name top with
    | some node => s.withItems (node :: below)
    | none => s.report (.notNamed (some top.kind) name)

/-- A node that is no function takes no parameters. -/
def withParameter? (name : String) : Node → Option Node
  | .function f => some (.function { f with params := f.params ++ [name] })
  | _ => none

def addParameter (s : Construction) (name : String) : Construction :=
  match Stack.updateFirst (withParameter? name) s.items with
  | some items => s.withItems items
  | none => s.report (.missingContext "add-parameter" .function name)

def withTokens? (tokens : List (Token Leaf)) : Node → Option Node
  | .expression e => some (.expression (e.append tokens))
  | _ => none

/-- Tokens go to the nearest expression. -/
def addTokens? (tokens : List (Token Leaf)) (items : List Node) : Option (List Node) :=
  Stack.updateFirst (withTokens? tokens) items

/-- A leading underscore marks a variable; anything else is a constant. -/
def literalLeaf (id : Nat) (text : String) : Leaf :=
  if text.toList.head? = some '_' then .identifier ⟨id, text⟩ else .constant ⟨id, text⟩

def appendLiteral (s : Construction) (text : String) : Construction :=
  match addTokens? [.leaf (literalLeaf s.nextId text)] s.items with
  | some items => { s.withItems items with nextId := s.nextId + 1 }
  | none => s.report (.missingContext "append-literal" .expression text)

def appendOperator (s : Construction) (symbol : String) (unary : Bool) : Construction :=
  match addTokens? [.ofSymbol symbol unary] s.items with
  | some items => s.withItems items
  | none => s.report (.missingContext "append-operator" .expression symbol)

/-- The leaf that a node of that kind becomes in an expression, and its name. -/
def operand? : NodeKind → Node → Option (Leaf × String)
  | .identifier, .identifier i => some (.identifier i, i.name)
  | .call, .call c => some (.call c, c.name)
  | _, _ => none

/-- Moves the operand on top into the nearest expression. -/
def appendTop (s : Construction) (action : String) (expected : NodeKind) : Construction :=
  match s.items with
  | [] => s.unexpectedTop action expected
  | top :: below =>
    match operand? expected top with
    | some (leaf, name) =>
      match addTokens? [.leaf leaf] below with
      | some items => s.withItems items
      | none => s.report (.missingContext action .expression name)
    | none => s.unexpectedTop action expected

/-- The identifier on top becomes a call of that name, under a new number. -/
def identifierToCall (s : Construction) : Construction :=
  match s.items with
  | .identifier i :: below =>
    { s.withItems (.call ⟨s.nextId, i.name, []⟩ :: below) with nextId := s.nextId + 1 }
  | _ => s.unexpectedTop "identifier-to-call" .identifier

/-- Hands the expression on top over. -/
def popExpression (s : Construction) : Option Expression × Construction :=
  match s.items with
  | .expression e :: below => (some e, s.withItems below)
  | _ => (none, s.unexpectedTop "pop-expression" .expression)

/-- Adds a value to the case on top, or else opens a case inside of some switch. -/
def beginCase (s : Construction) (value : Expression) : Construction :=
  match s.items with
  | .switchCase c :: below =>
    s.withItems (.switchCase { c with values := c.values ++ [value] } :: below)
  | items =>
    if items.any (·.kind == .switch) then s.openNode fun id => .switchCase (.first id value)
    else s.report (.missingContext "begin-switch-case" .switch s!"case {value.id}")

def withFallbackSeen? : Node → Option Node
  | .switch w => some (.switch { w with fallbackSeen := true })
  | _ => none

/-- From now on the nearest switch takes a finished block as its default. -/
def announceDefault (s : Construction) : Construction :=
  match s.items with
  | .switchCase _ :: _ => s.report .defaultInsideCase
  | items =>
    match Stack.updateFirst withFallbackSeen? items with
    | some items => s.withItems items
    | none => s.report (.missingContext "begin-switch-case" .switch "default")

def switch? : Node → Option Switch
  | .switch w => some w
  | _ => none

def withFallback? (b : Block) : Node → Option Node
  | .switch w => some (.switch { w with fallback := some b })
  | _ => none

/-- Before the default is announced, the block on top is the body of the case below it, and that
case joins the switch below it; afterwards the block is the default of the nearest switch. -/
def endCase (s : Construction) : Construction :=
  match s.items.findSome? switch?, s.items with
  | none, _ => s.report (.missingContext "end-switch-case" .switch "case body")
  | some w, .block b :: below =>
    if w.fallbackSeen then
      match w.fallback, Stack.updateFirst (withFallback? b) below with
      | none, some items => s.withItems items
      | _, _ => s.report (.cannotAttach (some .switch) .block)
    else
      match below with
      | .switchCase c :: .switch w :: below =>
        let finished := { c with body := some b }
        s.withItems (.switch { w with cases := w.cases ++ [finished] } :: below)
      | _ => s.report
          (.unexpectedTop "end-switch-case" .switchCase (below.head?.map Node.kind))
  | some _, _ => s.unexpectedTop "end-switch-case" .block

/-- Moves the node on top into the next free field of the node below it, or puts it back if there is
no such field. -/
def attach (s : Construction) : Construction :=
  match s.nodes.pop? with
  | none => s.report (.nothingOpen "attach")
  | some (child, nodes) =>
    let back := { s with nodes := nodes.push child }
    match nodes.values.items with
    | [] => back.report (.cannotAttach none child.kind)
    | parent :: below =>
      match parent.place child with
      | some node => s.withItems (node :: below)
      | none => back.report (.cannotAttach (some parent.kind) child.kind)

def waypoint (s : Construction) : Construction := { s with nodes := s.nodes.waypoint }

/-- Hands over the nodes opened since the latest waypoint, in the order of their opening. -/
def rewind (s : Construction) : Except BuildFailure (List Node) × Construction :=
  if s.aborted then (.error .aborted, s)
  else
    match s.nodes.rewind with
    | (.ok taken, nodes) => (.ok taken, { s with nodes })
    | (.error cause, nodes) => (.error (.underflow cause), { s with nodes, aborted := true })

def reattach (s : Construction) (nodes : List Node) : Construction :=
  { s with nodes := s.nodes.extend nodes }

/-- An expression on top of another one becomes part of it. -/
def closeExpression (e : Expression) : List Node → List Node
  | .expression parent :: below => .expression (parent.append e.tokens) :: below
  | below => .expression e :: below

/-- Undoes a rewind, by a waypoint if it used one up and by the nodes that it took. -/
def restore (s : Construction) (hadWaypoint : Bool) (taken : List Node) : Construction :=
  (if hadWaypoint then s.waypoint else s).reattach taken

/-- Nodes since the latest waypoint become tokens of the expression below them, which is then
finished. If they cannot, or if there is no expression, waypoint and nodes are put back. -/
def endExpression (s : Construction) : Except BuildFailure Unit × Construction :=
  match s.rewind with
  | (.error cause, s) => (.error cause, s)
  | (.ok parts, rest) =>
    let back := rest.restore (!s.nodes.marks.isEmpty) parts
    match parts.find? (·.tokens?.isNone), rest.items with
    | some misfit, _ => (.ok (), back.report (.notAnExpressionPart misfit.kind))
    | none, .expression e :: below =>
      let finished := e.append (parts.flatMap fun part => part.tokens?.getD [])
      (.ok (), rest.withItems (closeExpression finished below))
    | none, items => (.ok (),
        back.report (.unexpectedTop "end-expression" .expression (items.head?.map Node.kind)))

/-- A construction is complete when the program is the only open node. -/
def finish (s : Construction) : Except BuildFailure Program :=
  if s.aborted then .error .aborted
  else
    match s.items with
    | [] => .error .empty
    | [.program p] => .ok p
    | [node] => .error (.notAProgram node.kind)
    | nodes => .error (.unfinished nodes.length)

end Construction

end StackCompiler
