import StackCompiler.Assembly.Constant
import StackCompiler.Machine.State
import StackCompiler.Proofs.Tree.Infix
import StackCompiler.Proofs.Tree.Subtree

/-!
What a program means, without any code. The tree is walked from the outside in; calls and rounds of
a loop may go on forever, so the walk has fuel, and a walk that runs out of it means nothing.
-/

namespace StackCompiler.Semantics

open Assembly (UnaryOp BinaryOp decodeConstant)
open Machine (Value Mismatch RunError Console)

/-- Why a walk ends before the entry function returns. -/
inductive Stop where
  | fault (cause : RunError)
  /-- Something is missing or does not fit, such as an argument too few. -/
  | illFormed
  /-- An operator that no machine has, an exit without its target, or a function without a result. -/
  | meaningless
  | outOfFuel

/-- Variables belong to one call, the console to all. -/
structure Store where
  vars : List (String × Value) := []
  console : Console

/-- The store outlasts a stop, so that what was printed before is known. -/
abbrev Exec := EStateM Stop Store

/-- How control leaves a statement. -/
inductive Flow where
  | onward
  | leaveSwitch (target : Option Nat)
  | leaveLoop (target : Option Nat)
  | returned (v : Value)

def Flow.pastSwitch (id : Nat) : Flow → Flow
  | leaveSwitch target => if target = some id then onward else leaveSwitch target
  | flow => flow

def Flow.pastLoop (id : Nat) : Flow → Flow
  | leaveLoop target => if target = some id then onward else leaveLoop target
  | flow => flow

def fetch (name : String) : Exec Value := do
  match Machine.lookup name (← get).vars with
  | some v => return v
  | none => throw (.fault (.unknownVariable name))

section

variable {α β : Type} {m : Exec α} {f : α → Exec β} {s t : Store}

theorem bind_of_ok {a : α} (h : m s = .ok a t) : (m >>= f) s = f a t := by
  simp only [Bind.bind, EStateM.bind, h]

theorem bind_of_error {stop : Stop} (h : m s = .error stop t) : (m >>= f) s = .error stop t := by
  simp only [Bind.bind, EStateM.bind, h]

theorem get_bind (f : Store → Exec β) : ((get : Exec Store) >>= f) s = f s s := rfl

theorem fetch_of_some {name : String} {v : Value} (h : Machine.lookup name s.vars = some v) :
    fetch name s = .ok v s := by
  rw [fetch, get_bind, h]
  rfl

theorem fetch_of_none {name : String} (h : Machine.lookup name s.vars = none) :
    fetch name s = .error (.fault (.unknownVariable name)) s := by
  rw [fetch, get_bind, h]
  rfl

end

def put (name : String) (v : Value) : Exec Unit :=
  modify fun s => { s with vars := Machine.assign name v s.vars }

def constant (literal : String) : Exec Value :=
  match Value.ofLiteral? (decodeConstant literal) with
  | some v => return v
  | none => throw (.fault (.badLiteral (decodeConstant literal)))

def checked (result : Except Mismatch Value) : Exec Value :=
  match result with
  | .ok v => return v
  | .error cause => throw (.fault (.typeMismatch cause))

def applyUnary (op : Operator) (v : Value) : Exec Value :=
  match UnaryOp.ofOperator? op with
  | some op => checked (Value.applyUnary op v)
  | none => throw .meaningless

def applyBinary (op : Operator) (left right : Value) : Exec Value :=
  match BinaryOp.ofOperator? op with
  | some op => checked (Value.applyBinary op left right)
  | none => throw .meaningless

def print (vs : List Value) : Exec Unit :=
  modify fun s => { s with console := s.console.printLine (" ".intercalate (vs.map Value.text)) }

def readLine : Exec Value := do
  let s ← get
  let (line, console) := s.console.readLine
  set { s with console }
  match line with
  | some line => return .ofInput line
  | none => throw (.fault .undecodableInput)

/-- The first of two parameters of one name counts. -/
def bindParams : List String → List Value → List (String × Value)
  | x :: xs, v :: vs => Machine.assign x v (bindParams xs vs)
  | _, _ => []

/-- The caller's variables are as they were once the call is over. -/
def inCall {α : Type} (vars : List (String × Value)) (m : Exec α) : Exec α := fun s =>
  match m { s with vars } with
  | .ok a t => .ok a { t with vars := s.vars }
  | .error stop t => .error stop { t with vars := s.vars }

/-- Operands from left to right. -/
def evaluate (operand : Leaf → Exec Value) : Infix Leaf → Exec Value
  | .leaf l => operand l
  | .unary op _ t => do
    let v ← evaluate operand t
    applyUnary op v
  | .binary op _ l r => do
    let left ← evaluate operand l
    let right ← evaluate operand r
    applyBinary op left right

def evaluateAll (eval : Expression → Exec Value) : List Expression → Exec (List Value)
  | [] => return []
  | e :: es => do
    let v ← eval e
    let vs ← evaluateAll eval es
    return v :: vs

def evaluateField (eval : Expression → Exec Value) : Option Expression → Exec Value
  | some e => eval e
  | none => throw .illFormed

/-- The scrutinee is evaluated once for each value, even when an earlier one was equal to it. -/
def compareAll (eval : Expression → Exec Value) (scrutinee : Option Expression) :
    List Expression → Exec (List Value)
  | [] => return []
  | e :: es => do
    let left ← evaluateField eval scrutinee
    let right ← eval e
    let v ← checked (Value.applyBinary .eq left right)
    let vs ← compareAll eval scrutinee es
    return v :: vs

/-- A loop without an increment counts by one. -/
def amount (eval : Expression → Exec Value) : Option Expression → Exec Value
  | some e => eval e
  | none => return .number 1

def walkAll (run : Statement → Exec Flow) : List Statement → Exec Flow
  | [] => return .onward
  | s :: rest => do
    match ← run s with
    | .onward => walkAll run rest
    | flow => return flow

def walkBody (run : Statement → Exec Flow) : Option Block → Exec Flow
  | some b => walkAll run b.statements
  | none => return .onward

def chooseCase (eval : Expression → Exec Value) (run : Statement → Exec Flow)
    (scrutinee : Option Expression) (fallback : Option Block) : List SwitchCase → Exec Flow
  | [] => walkBody run fallback
  | c :: rest => do
    let verdicts ← compareAll eval scrutinee c.values
    if verdicts.any Value.isTruthy then walkBody run c.body
    else chooseCase eval run scrutinee fallback rest

/-- The variable is the right operand of the sum. This follows the compiled code, since it is the runs
of the code that the interpreter accounts for: the increment names the variable first and pops the
step after it, and of two operands the machine takes the first for the right one. The listing has
the variable on the left. The two sums are the same for numbers, but not where one of them is a text,
as the module about increments shows. -/
def advance (var : String) (step : Value) : Exec Unit := do
  let current ← fetch var
  let next ← checked (Value.applyBinary .add step current)
  put var next

/-- The end of the range is evaluated before every round. -/
def round (eval : Expression → Exec Value) (run : Statement → Exec Flow) (l : Loop)
    (again : Exec Flow) : Exec Flow := do
  let current ← fetch l.var
  let last ← evaluateField eval l.stop
  let within ← checked (Value.applyBinary .lessEq current last)
  if within.isTruthy then
    match ← walkBody run l.body with
    | .onward =>
      let step ← amount eval l.increment
      advance l.var step
      again
    | flow => return flow.pastLoop l.id
  else return .onward

variable (p : Program) (reading : Expression → Infix Leaf)

mutual

def valueOf : Nat → Expression → Exec Value
  | 0, _ => throw .outOfFuel
  | fuel + 1, e => evaluate (leafValue fuel) (reading e)
termination_by structural fuel => fuel

def leafValue : Nat → Leaf → Exec Value
  | 0, _ => throw .outOfFuel
  | _ + 1, .identifier i => fetch i.name
  | _ + 1, .constant c => constant c.literal
  | fuel + 1, .call c => do
    let args ← evaluateAll (valueOf fuel) c.args
    match c.builtin?, p.function? c.name with
    | some .read, _ => readLine
    | none, some f => enter fuel f args
    | _, _ => throw .illFormed
termination_by structural fuel => fuel

def enter : Nat → Function → List Value → Exec Value
  | 0, _, _ => throw .outOfFuel
  | fuel + 1, f, args =>
    if f.params.length = args.length then
      inCall (bindParams f.params args) do
        match ← walkBody (walk fuel) f.body with
        | .returned v => return v
        | _ => throw .meaningless
    else throw .illFormed
termination_by structural fuel => fuel

def walk : Nat → Statement → Exec Flow
  | 0, _ => throw .outOfFuel
  | fuel + 1, .assignment a => do
    let v ← evaluateField (valueOf fuel) a.value
    put a.target v
    return .onward
  | fuel + 1, .block b => walkAll (walk fuel) b.statements
  | fuel + 1, .conditional c => do
    let v ← evaluateField (valueOf fuel) c.condition
    walkBody (walk fuel) (if v.isTruthy then c.thenBlock else c.elseBlock)
  | fuel + 1, .loop l => do
    let v ← evaluateField (valueOf fuel) l.start
    put l.var v
    rounds fuel l
  | fuel + 1, .switch s => do
    let flow ← chooseCase (valueOf fuel) (walk fuel) s.scrutinee s.fallback s.cases
    return flow.pastSwitch s.id
  | _ + 1, .switchExit e => return .leaveSwitch e.target
  | _ + 1, .loopExit e => return .leaveLoop e.target
  | fuel + 1, .ret r => do
    let v ← evaluateField (valueOf fuel) r.value
    return .returned v
  | fuel + 1, .call c => do
    let args ← evaluateAll (valueOf fuel) c.args
    match c.builtin? with
    | some .print =>
      print args
      return .onward
    | _ => throw .illFormed
termination_by structural fuel => fuel

def rounds : Nat → Loop → Exec Flow
  | 0, _ => throw .outOfFuel
  | fuel + 1, l => round (valueOf fuel) (walk fuel) l (rounds fuel l)
termination_by structural fuel => fuel

end

/-- Calls the entry function without arguments. -/
def run (fuel : Nat) : Exec Value :=
  match p.main? with
  | some f => enter p reading fuel f []
  | none => throw (.fault .missingEntry)

end StackCompiler.Semantics
