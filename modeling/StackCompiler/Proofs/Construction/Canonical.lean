import StackCompiler.Proofs.Construction.Drive
import StackCompiler.Proofs.Tree.Erase

/-!
How a caller builds a given tree: it opens a node, names it, builds what goes into its fields one
after the other and attaches each as soon as it is finished. Numbers and targets of the given tree
play no part in this.
-/

namespace StackCompiler

/-- A minus before its operand is marked, and any other operator is known from its symbol. -/
def Operator.cue : Operator → Cue
  | .negate => .act (.operator "-" true)
  | op => .act (.operator op.symbol false)

mutual

def Leaf.cues : Leaf → List Cue
  | .identifier i => [.act (.start .identifier), .act (.name i.name), .act .identifierToken]
  | .constant c => [.act (.literal c.literal)]
  | .call c => c.cues ++ [.act .callToken]
termination_by structural l => l

/-- A call starts as an identifier. -/
def Call.cues : Call → List Cue
  | ⟨_, name, args⟩ =>
    [.act (.start .identifier), .act (.name name), .act .identifierToCall] ++ argumentCues args
termination_by structural c => c

def argumentCues : List Expression → List Cue
  | [] => []
  | e :: es => e.cues ++ [.act .attach] ++ argumentCues es
termination_by structural es => es

def Expression.cues : Expression → List Cue
  | ⟨_, tokens⟩ => .act (.start .expression) :: tokenCues tokens ++ [.act .endExpression]
termination_by structural e => e

def tokenCues : List (Token Leaf) → List Cue
  | [] => []
  | .leaf l :: tokens => l.cues ++ tokenCues tokens
  | .operator op :: tokens => op.cue :: tokenCues tokens
  | .opening :: tokens => .act (.operator "(" false) :: tokenCues tokens
  | .closing :: tokens => .act (.operator ")" false) :: tokenCues tokens
termination_by structural tokens => tokens

end

/-- A missing expression has no cues. -/
def fieldCues : Option Expression → List Cue
  | some e => e.cues ++ [.act .attach]
  | none => []

mutual

def Statement.cues : Statement → List Cue
  | .assignment a => [.act (.start .assignment), .act (.name a.target)] ++ fieldCues a.value
  | .block b => b.cues
  | .conditional c => c.cues
  | .loop l => l.cues
  | .switch s => s.cues
  | .switchExit _ => [.act .startSwitchExit]
  | .loopExit _ => [.act .startLoopExit]
  | .ret r => [.act (.start .ret)] ++ fieldCues r.value
  | .call c => c.cues
termination_by structural s => s

def statementCues : List Statement → List Cue
  | [] => []
  | s :: rest => s.cues ++ [.act .attach] ++ statementCues rest
termination_by structural ss => ss

def Block.cues : Block → List Cue
  | ⟨_, body⟩ => .act (.start .block) :: statementCues body
termination_by structural b => b

/-- A block is finished by the given action, and nothing comes of a missing one. -/
def bodyCues (finish : Action) : Option Block → List Cue
  | some b => b.cues ++ [.act finish]
  | none => []
termination_by structural b => b

def Conditional.cues : Conditional → List Cue
  | ⟨_, condition, thenBlock, elseBlock⟩ =>
    [.act (.start .conditional)] ++ fieldCues condition ++ bodyCues .attach thenBlock ++
      bodyCues .attach elseBlock
termination_by structural c => c

def Loop.cues : Loop → List Cue
  | ⟨_, var, start, stop, step, inner⟩ =>
    [.act (.start .loop), .act (.name var)] ++ fieldCues start ++ fieldCues stop ++
      fieldCues step ++ bodyCues .attach inner
termination_by structural l => l

/-- The default comes after all cases. -/
def Switch.cues : Switch → List Cue
  | ⟨_, scrutinee, cases, fallback, _⟩ =>
    [.act (.start .switch)] ++ fieldCues scrutinee ++ caseCues cases ++
      (if fallback.isSome then [.act .announceDefault] else []) ++ bodyCues .endCase fallback
termination_by structural s => s

def caseCues : List SwitchCase → List Cue
  | [] => []
  | c :: rest => c.cues ++ caseCues rest
termination_by structural cases => cases

/-- All values come before the body. -/
def SwitchCase.cues : SwitchCase → List Cue
  | ⟨_, values, inner⟩ =>
    (values.flatMap fun v => v.cues ++ [.caseOfTop]) ++ bodyCues .endCase inner
termination_by structural c => c

end

def Function.cues (f : Function) : List Cue :=
  [.act (.start .function), .act (.name f.name)] ++
    (f.params.map fun x => .act (.parameter x)) ++ bodyCues .attach f.body

def Program.cues (p : Program) : List Cue :=
  .act (.start .program) :: p.functions.flatMap fun f => f.cues ++ [.act .attach]

/-- A constant does not look like a variable, and an operator is the one that its symbol names. -/
def Token.Plain : Token Leaf → Prop
  | .leaf (.constant c) => c.literal.toList.head? ≠ some '_'
  | .operator op => (Token.ofSymbol op.symbol false : Token Leaf) = .operator op
  | _ => True

/-- Only the else part of a conditional, the increment of a loop, the default of a switch and the
value of a return may be missing. -/
def Node.Complete : Node → Prop
  | function f => f.body.isSome
  | assignment a => a.value.isSome
  | loop l => l.start.isSome ∧ l.stop.isSome ∧ l.body.isSome
  | conditional c => c.condition.isSome ∧ c.thenBlock.isSome
  | switch s => s.scrutinee.isSome ∧ s.fallbackSeen = s.fallback.isSome
  | switchCase c => c.values ≠ [] ∧ c.body.isSome
  | expression e => ∀ t ∈ e.tokens, t.Plain
  | _ => True

namespace Node

def cues : Node → List Cue
  | program p => p.cues
  | function f => f.cues
  | block b => b.cues
  | assignment a => Statement.cues (.assignment a)
  | ret r => Statement.cues (.ret r)
  | switchExit e => Statement.cues (.switchExit e)
  | loopExit e => Statement.cues (.loopExit e)
  | loop l => l.cues
  | conditional c => c.cues
  | switch s => s.cues
  | switchCase c => c.cues
  | expression e => e.cues
  | identifier i => [.act (.start .identifier), .act (.name i.name)]
  | call c => c.cues

/-- Nodes all of whose children are attached in their order. -/
def attaches : Node → Bool
  | switch _ | switchCase _ | expression _ | identifier _ | switchExit _ | loopExit _ => false
  | _ => true

/-- What comes before the first child. -/
def opening : Node → List Cue
  | program _ => [.act (.start .program)]
  | function f => [.act (.start .function), .act (.name f.name)] ++
      f.params.map fun x => .act (.parameter x)
  | block _ => [.act (.start .block)]
  | assignment a => [.act (.start .assignment), .act (.name a.target)]
  | ret _ => [.act (.start .ret)]
  | loop l => [.act (.start .loop), .act (.name l.var)]
  | conditional _ => [.act (.start .conditional)]
  | call c => [.act (.start .identifier), .act (.name c.name), .act .identifierToCall]
  | _ => []

/-- The node without its children, under another number. -/
def opened (k : Nat) : Node → Node
  | program _ => program ⟨k, []⟩
  | function f => function ⟨k, f.name, f.params, none⟩
  | block _ => block ⟨k, []⟩
  | assignment a => assignment ⟨k, a.target, none⟩
  | ret _ => ret ⟨k, none⟩
  | loop l => loop ⟨k, l.var, none, none, none, none⟩
  | conditional _ => conditional ⟨k, none, none, none⟩
  | call c => call ⟨k, c.name, []⟩
  | n => n

end Node

/-- The cues of a token, which becomes the last one of the expression on top. -/
def Token.cues : Token Leaf → List Cue
  | .leaf l => l.cues
  | .operator op => [op.cue]
  | .opening => [.act (.operator "(" false)]
  | .closing => [.act (.operator ")" false)]

theorem tokenCues_eq (tokens : List (Token Leaf)) : tokenCues tokens = tokens.flatMap Token.cues := by
  induction tokens with
  | nil => rfl
  | cons token tokens ih => cases token <;> simp [tokenCues, Token.cues, ih]

theorem argumentCues_eq (args : List Expression) :
    argumentCues args = args.flatMap fun e => e.cues ++ [.act .attach] := by
  induction args with
  | nil => rfl
  | cons e es ih => rw [argumentCues, List.flatMap_cons, ih]

theorem statementCues_eq (ss : List Statement) :
    statementCues ss = ss.flatMap fun s => s.cues ++ [.act .attach] := by
  induction ss with
  | nil => rfl
  | cons s ss ih => rw [statementCues, List.flatMap_cons, ih]

theorem caseCues_eq (cases : List SwitchCase) : caseCues cases = cases.flatMap SwitchCase.cues := by
  induction cases with
  | nil => rfl
  | cons c cases ih => rw [caseCues, List.flatMap_cons, ih]

theorem fieldCues_eq (e : Option Expression) :
    fieldCues e = e.toList.flatMap fun e => e.cues ++ [.act .attach] := by
  cases e <;> simp [fieldCues]

theorem bodyCues_eq (finish : Action) (b : Option Block) :
    bodyCues finish b = b.toList.flatMap fun b => b.cues ++ [.act finish] := by
  cases b <;> simp [bodyCues]

namespace Node

theorem cues_node (s : Statement) : s.node.cues = s.cues := by
  cases s <;> rfl

/-- The children are built in their order, each of them between the opening and its attachment. -/
theorem cues_of_attaches {n : Node} (h : n.attaches) :
    n.cues = n.opening ++ n.children.flatMap fun c => c.cues ++ [.act .attach] := by
  cases n with
  | program p => simp [cues, Program.cues, opening, children, List.flatMap_map]
  | function f => simp [cues, Function.cues, opening, children, bodyCues_eq, List.flatMap_map]
  | block b =>
    obtain ⟨id, body⟩ := b
    have own : (block ⟨id, body⟩).cues = .act (.start .block) :: statementCues body := rfl
    simp [own, opening, children, statementCues_eq, List.flatMap_map, cues_node]
  | assignment a => simp [cues, Statement.cues, opening, children, fieldCues_eq, List.flatMap_map]
  | ret r => simp [cues, Statement.cues, opening, children, fieldCues_eq, List.flatMap_map]
  | loop l =>
    obtain ⟨id, var, start, stop, step, inner⟩ := l
    simp [cues, Loop.cues, opening, children, fieldCues_eq, bodyCues_eq, List.flatMap_map]
  | conditional c =>
    obtain ⟨id, condition, thenBlock, elseBlock⟩ := c
    simp [cues, Conditional.cues, opening, children, fieldCues_eq, bodyCues_eq, List.flatMap_map]
  | call c =>
    obtain ⟨id, name, args⟩ := c
    simp [cues, Call.cues, opening, children, argumentCues_eq, List.flatMap_map]
  | _ => cases h

end Node

end StackCompiler
