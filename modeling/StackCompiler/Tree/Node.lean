import StackCompiler.Tree.Statement

/-!
Nodes of any kind, and which fields of a node take which other nodes.
-/

namespace StackCompiler

inductive Node where
  | program (p : Program)
  | function (f : Function)
  | block (b : Block)
  | assignment (a : Assignment)
  | ret (r : Return)
  | switchExit (e : SwitchExit)
  | loopExit (e : LoopExit)
  | loop (l : Loop)
  | conditional (c : Conditional)
  | switch (s : Switch)
  | switchCase (c : SwitchCase)
  | expression (e : Expression)
  | identifier (i : Identifier)
  | call (c : Call)

/-- A break leaves a switch, and a loop exit a loop. -/
inductive ExitKind where
  | switch | loop

def ExitKind.left : ExitKind → NodeKind
  | switch => .switch
  | loop => .loop

def ExitKind.node (id : Nat) (target : Option Nat) : ExitKind → Node
  | switch => .switchExit ⟨id, target⟩
  | loop => .loopExit ⟨id, target⟩

namespace Node

def kind : Node → NodeKind
  | program _ => .program
  | function _ => .function
  | block _ => .block
  | assignment _ => .assignment
  | ret _ => .ret
  | switchExit _ => .switchExit
  | loopExit _ => .loopExit
  | loop _ => .loop
  | conditional _ => .conditional
  | switch _ => .switch
  | switchCase _ => .switchCase
  | expression _ => .expression
  | identifier _ => .identifier
  | call _ => .call

def id : Node → Nat
  | program p => p.id
  | function f => f.id
  | block b => b.id
  | assignment a => a.id
  | ret r => r.id
  | switchExit e => e.id
  | loopExit e => e.id
  | loop l => l.id
  | conditional c => c.id
  | switch s => s.id
  | switchCase c => c.id
  | expression e => e.id
  | identifier i => i.id
  | call c => c.id

/-- Expressions, identifiers, cases, functions and programs are no statements. -/
def statement? : Node → Option Statement
  | assignment a => some (.assignment a)
  | block b => some (.block b)
  | conditional c => some (.conditional c)
  | loop l => some (.loop l)
  | switch s => some (.switch s)
  | switchExit e => some (.switchExit e)
  | loopExit e => some (.loopExit e)
  | ret r => some (.ret r)
  | call c => some (.call c)
  | _ => none

/-- The tokens that the node adds to an expression it becomes part of. -/
def tokens? : Node → Option (List (Token Leaf))
  | expression e => some e.tokens
  | identifier i => some [.leaf (.identifier i)]
  | call c => some [.leaf (.call c)]
  | _ => none

/-- Fields are filled in the order of their completion, so an expression goes to the first field
for expressions that is still free, and a block to the first for blocks. -/
def place : (parent child : Node) → Option Node
  | program p, function f => some (program { p with functions := p.functions ++ [f] })
  | function f, block b =>
    match f.body with
    | none => some (function { f with body := some b })
    | some _ => none
  | assignment a, expression e =>
    match a.value with
    | none => some (assignment { a with value := some e })
    | some _ => none
  | ret r, expression e =>
    match r.value with
    | none => some (ret { r with value := some e })
    | some _ => none
  | call c, expression e => some (call { c with args := c.args ++ [e] })
  | conditional c, expression e =>
    match c.condition with
    | none => some (conditional { c with condition := some e })
    | some _ => none
  | conditional c, block b =>
    match c.thenBlock, c.elseBlock with
    | none, _ => some (conditional { c with thenBlock := some b })
    | some _, none => some (conditional { c with elseBlock := some b })
    | some _, some _ => none
  | loop l, expression e =>
    match l.start, l.stop, l.increment with
    | none, _, _ => some (loop { l with start := some e })
    | some _, none, _ => some (loop { l with stop := some e })
    | some _, some _, none => some (loop { l with increment := some e })
    | some _, some _, some _ => none
  | loop l, block b =>
    match l.body with
    | none => some (loop { l with body := some b })
    | some _ => none
  | switch s, expression e =>
    match s.scrutinee with
    | none => some (switch { s with scrutinee := some e })
    | some _ => none
  | block b, child =>
    child.statement?.map fun statement =>
      block { b with statements := b.statements ++ [statement] }
  | _, _ => none

end Node

end StackCompiler
