import StackCompiler.Proofs.Tree.Order

/-!
Trees without the numbers of their nodes. Two trees that are equal without them say the same.
-/

namespace StackCompiler

mutual

def Leaf.erase : Leaf → Leaf
  | .identifier i => .identifier ⟨0, i.name⟩
  | .constant c => .constant ⟨0, c.literal⟩
  | .call c => .call c.erase
termination_by structural l => l

def Call.erase : Call → Call
  | ⟨_, name, args⟩ => ⟨0, name, eraseArguments args⟩
termination_by structural c => c

def eraseArguments : List Expression → List Expression
  | [] => []
  | e :: es => e.erase :: eraseArguments es
termination_by structural es => es

def Expression.erase : Expression → Expression
  | ⟨_, tokens⟩ => ⟨0, eraseTokens tokens⟩
termination_by structural e => e

def eraseTokens : List (Token Leaf) → List (Token Leaf)
  | [] => []
  | .leaf l :: tokens => .leaf l.erase :: eraseTokens tokens
  | .operator op :: tokens => .operator op :: eraseTokens tokens
  | .opening :: tokens => .opening :: eraseTokens tokens
  | .closing :: tokens => .closing :: eraseTokens tokens
termination_by structural tokens => tokens

end

mutual

/-- Targets of exits are numbers of nodes too. -/
def Statement.erase : Statement → Statement
  | .assignment a => .assignment ⟨0, a.target, a.value.map Expression.erase⟩
  | .block b => .block b.erase
  | .conditional c => .conditional c.erase
  | .loop l => .loop l.erase
  | .switch s => .switch s.erase
  | .switchExit _ => .switchExit ⟨0, none⟩
  | .loopExit _ => .loopExit ⟨0, none⟩
  | .ret r => .ret ⟨0, r.value.map Expression.erase⟩
  | .call c => .call c.erase
termination_by structural s => s

def eraseStatements : List Statement → List Statement
  | [] => []
  | s :: rest => s.erase :: eraseStatements rest
termination_by structural ss => ss

def Block.erase : Block → Block
  | ⟨_, body⟩ => ⟨0, eraseStatements body⟩
termination_by structural b => b

def eraseBody : Option Block → Option Block
  | some b => some b.erase
  | none => none
termination_by structural b => b

def Conditional.erase : Conditional → Conditional
  | ⟨_, condition, thenBlock, elseBlock⟩ =>
    ⟨0, condition.map Expression.erase, eraseBody thenBlock, eraseBody elseBlock⟩
termination_by structural c => c

def Loop.erase : Loop → Loop
  | ⟨_, var, start, stop, step, inner⟩ =>
    ⟨0, var, start.map Expression.erase, stop.map Expression.erase, step.map Expression.erase,
      eraseBody inner⟩
termination_by structural l => l

def Switch.erase : Switch → Switch
  | ⟨_, scrutinee, cases, fallback, fallbackSeen⟩ =>
    ⟨0, scrutinee.map Expression.erase, eraseCases cases, eraseBody fallback, fallbackSeen⟩
termination_by structural s => s

def eraseCases : List SwitchCase → List SwitchCase
  | [] => []
  | c :: rest => c.erase :: eraseCases rest
termination_by structural cases => cases

def SwitchCase.erase : SwitchCase → SwitchCase
  | ⟨_, values, inner⟩ => ⟨0, values.map Expression.erase, eraseBody inner⟩
termination_by structural c => c

end

def Function.erase (f : Function) : Function := ⟨0, f.name, f.params, f.body.map Block.erase⟩

def Program.erase (p : Program) : Program := ⟨0, p.functions.map Function.erase⟩

theorem eraseArguments_eq (args : List Expression) :
    eraseArguments args = args.map Expression.erase := by
  induction args with
  | nil => rfl
  | cons e es ih => rw [eraseArguments, List.map_cons, ih]

theorem eraseTokens_eq (tokens : List (Token Leaf)) :
    eraseTokens tokens = tokens.map (Token.map Leaf.erase) := by
  induction tokens with
  | nil => rfl
  | cons token tokens ih => cases token <;> simp [eraseTokens, Token.map, ih]

theorem eraseStatements_eq (ss : List Statement) :
    eraseStatements ss = ss.map Statement.erase := by
  induction ss with
  | nil => rfl
  | cons s ss ih => rw [eraseStatements, List.map_cons, ih]

theorem eraseBody_eq (b : Option Block) : eraseBody b = b.map Block.erase := by
  cases b <;> rfl

theorem eraseCases_eq (cases : List SwitchCase) : eraseCases cases = cases.map SwitchCase.erase := by
  induction cases with
  | nil => rfl
  | cons c cases ih => rw [eraseCases, List.map_cons, ih]

section

theorem Call.erase_eq (c : Call) : c.erase = ⟨0, c.name, c.args.map Expression.erase⟩ := by
  obtain ⟨id, name, args⟩ := c
  rw [Call.erase, eraseArguments_eq]

theorem Expression.erase_eq (e : Expression) :
    e.erase = ⟨0, e.tokens.map (Token.map Leaf.erase)⟩ := by
  obtain ⟨id, tokens⟩ := e
  rw [Expression.erase, eraseTokens_eq]

theorem Block.erase_eq (b : Block) : b.erase = ⟨0, b.statements.map Statement.erase⟩ := by
  obtain ⟨id, body⟩ := b
  rw [Block.erase, eraseStatements_eq]

theorem Conditional.erase_eq (c : Conditional) : c.erase =
    ⟨0, c.condition.map Expression.erase, c.thenBlock.map Block.erase,
      c.elseBlock.map Block.erase⟩ := by
  obtain ⟨id, condition, thenBlock, elseBlock⟩ := c
  rw [Conditional.erase, eraseBody_eq, eraseBody_eq]

theorem Loop.erase_eq (l : Loop) : l.erase =
    ⟨0, l.var, l.start.map Expression.erase, l.stop.map Expression.erase,
      l.increment.map Expression.erase, l.body.map Block.erase⟩ := by
  obtain ⟨id, var, start, stop, step, inner⟩ := l
  rw [Loop.erase, eraseBody_eq]

theorem Switch.erase_eq (s : Switch) : s.erase =
    ⟨0, s.scrutinee.map Expression.erase, s.cases.map SwitchCase.erase, s.fallback.map Block.erase,
      s.fallbackSeen⟩ := by
  obtain ⟨id, scrutinee, cases, fallback, fallbackSeen⟩ := s
  rw [Switch.erase, eraseCases_eq, eraseBody_eq]

theorem SwitchCase.erase_eq (c : SwitchCase) : c.erase =
    ⟨0, c.values.map Expression.erase, c.body.map Block.erase⟩ := by
  obtain ⟨id, values, inner⟩ := c
  rw [SwitchCase.erase, eraseBody_eq]

end

namespace Node

def erase : Node → Node
  | program p => program p.erase
  | function f => function f.erase
  | block b => block b.erase
  | assignment a => assignment ⟨0, a.target, a.value.map Expression.erase⟩
  | ret r => ret ⟨0, r.value.map Expression.erase⟩
  | switchExit _ => switchExit ⟨0, none⟩
  | loopExit _ => loopExit ⟨0, none⟩
  | loop l => loop l.erase
  | conditional c => conditional c.erase
  | switch s => switch s.erase
  | switchCase c => switchCase c.erase
  | expression e => expression e.erase
  | identifier i => identifier ⟨0, i.name⟩
  | call c => call c.erase

variable {n : Node}

theorem eq_expression_of_erase {e : Expression} (h : n.erase = (expression e).erase) :
    ∃ e', n = expression e' ∧ e'.erase = e.erase := by
  cases n <;> simp only [erase, expression.injEq, reduceCtorEq] at h
  exact ⟨_, rfl, h⟩

theorem eq_block_of_erase {b : Block} (h : n.erase = (block b).erase) :
    ∃ b', n = block b' ∧ b'.erase = b.erase := by
  cases n <;> simp only [erase, block.injEq, reduceCtorEq] at h
  exact ⟨_, rfl, h⟩

theorem eq_function_of_erase {f : Function} (h : n.erase = (function f).erase) :
    ∃ f', n = function f' ∧ f'.erase = f.erase := by
  cases n <;> simp only [erase, function.injEq, reduceCtorEq] at h
  exact ⟨_, rfl, h⟩

theorem eq_call_of_erase {c : Call} (h : n.erase = (call c).erase) :
    ∃ c', n = call c' ∧ c'.erase = c.erase := by
  cases n <;> simp only [erase, call.injEq, reduceCtorEq] at h
  exact ⟨_, rfl, h⟩

theorem eq_statement_of_erase {s : Statement} (h : n.erase = s.node.erase) :
    ∃ s' : Statement, n = s'.node ∧ s'.erase = s.erase := by
  have found : ∃ s', n.statement? = some s' ∧ s'.erase = s.erase := by
    cases s <;> cases n <;> simp_all [erase, Statement.node, statement?, Statement.erase]
  obtain ⟨s', hs, same⟩ := found
  exact ⟨s', statement?_eq_some hs, same⟩

end Node

end StackCompiler
