import StackCompiler.Machine.Run
import StackCompiler.Proofs.Assembly.Layout
import StackCompiler.Proofs.Semantics.Interpreter

/-!
What it means that the machine does the same as a walk of the tree, and that single instructions do
the same as single steps of the walk.
-/

namespace StackCompiler.Semantics

open Assembly (Code Instruction UnaryOp BinaryOp stackUnary stackBinary operatorInstruction
  decodeConstant)
open Machine

/-- The machine gets from one place to the other. -/
def Reaches (code : Code) (o o' : Outcome) : Prop := ∃ steps, resume code steps o = o'

namespace Reaches

variable {code : Code} {o o' o'' : Outcome}

theorem refl : Reaches code o o := ⟨0, by cases o <;> rfl⟩

theorem trans (h : Reaches code o o') (h' : Reaches code o' o'') : Reaches code o o'' := by
  obtain ⟨m, rfl⟩ := h
  obtain ⟨n, rfl⟩ := h'
  exact ⟨m + n, resume_add code m n o⟩

theorem step {s : State} {i : Instruction} (hi : code[s.position]? = some i)
    (h : s.execute code i = o) : Reaches code (.running s) o :=
  ⟨1, by simp only [resume, Machine.step, hi, h]; cases o <;> rfl⟩

end Reaches

/-- What a call leaves alone while it runs: the values below its own, and the frames below. -/
structure Context where
  returnTo : Option Nat
  values : List Value
  frames : List Frame

/-- The running call stands at this position and has pushed so much. -/
def Context.at (k : Context) (position : Nat) (pushed : List Value) (s : Store) : Outcome :=
  .running ⟨position, ⟨pushed ++ k.values⟩, ⟨k.returnTo, s.vars⟩ :: k.frames, s.console⟩

section

variable {α β : Type}

/-- The machine gets to where the result of the walk says, and it fails if the walk fails. -/
def Simulates (code : Code) (o : Outcome) (result : EStateM.Result Stop Store α)
    (target : α → Store → Outcome → Prop) : Prop :=
  match result with
  | .ok a s => ∃ o', Reaches code o o' ∧ target a s o'
  | .error (.fault cause) s => Reaches code o (.halted (.error cause) s.console)
  | .error .illFormed _ => False
  | .error .meaningless _ | .error .outOfFuel _ => True

variable {code : Code} {o o' : Outcome} {s : Store} {target : α → Store → Outcome → Prop}
  {target' : β → Store → Outcome → Prop}

namespace Simulates

theorem pure {a : α} (h : target a s o) : Simulates code o ((pure a : Exec α) s) target :=
  ⟨o, .refl, h⟩

theorem after {result : EStateM.Result Stop Store α} (h : Reaches code o o')
    (hr : Simulates code o' result target) : Simulates code o result target := by
  cases result with
  | ok a s =>
    obtain ⟨o'', h', ht⟩ := hr
    exact ⟨o'', h.trans h', ht⟩
  | error stop s =>
    cases stop with
    | fault cause => exact h.trans hr
    | illFormed => exact hr
    | meaningless | outOfFuel => trivial

/-- The machine can go on without the walk. -/
theorem extend {result : EStateM.Result Stop Store α} {later : α → Store → Outcome → Prop}
    (h : Simulates code o result target)
    (ht : ∀ a s o, target a s o → ∃ o', Reaches code o o' ∧ later a s o') :
    Simulates code o result later := by
  cases result with
  | ok a s =>
    obtain ⟨o', h, hs⟩ := h
    obtain ⟨o'', h', hs'⟩ := ht a s o' hs
    exact ⟨o'', h.trans h', hs'⟩
  | error stop s => cases stop <;> exact h

/-- Steps of the walk follow each other, and so do runs of the machine. -/
theorem bind {m : Exec α} {f : α → Exec β} (hm : Simulates code o (m s) target)
    (hf : ∀ a t o', target a t o' → Simulates code o' (f a t) target') :
    Simulates code o ((m >>= f) s) target' := by
  cases hs : m s with
  | ok a t =>
    rw [hs] at hm
    rw [bind_of_ok hs]
    obtain ⟨o', h, ht⟩ := hm
    exact (hf a t o' ht).after h
  | error stop t =>
    rw [hs] at hm
    rw [bind_of_error hs]
    cases stop <;> exact hm

end Simulates

end

variable {code : Code} {k : Context} {position : Nat} {pushed : List Value} {s : Store}

/-- The value is on top, and the machine stands at the position. -/
def Context.Pushed (k : Context) (position : Nat) (pushed : List Value) (v : Value) (s : Store)
    (o : Outcome) : Prop := o = k.at position (v :: pushed) s

/-- The values are on top, the last one first. -/
def Context.PushedAll (k : Context) (position : Nat) (pushed vs : List Value) (s : Store)
    (o : Outcome) : Prop := o = k.at position (vs.reverse ++ pushed) s

theorem reaches_comment {text : String} (h : code[position]? = some (.comment text)) :
    Reaches code (k.at position pushed s) (k.at (position + 1) pushed s) := .step h rfl

theorem reaches_label {l : Label} (h : code[position]? = some (.label l)) :
    Reaches code (k.at position pushed s) (k.at (position + 1) pushed s) := .step h rfl

theorem reaches_jump {l : Label} {destination : Nat} (h : code[position]? = some (.jump l))
    (hl : labelPosition? code l = some destination) :
    Reaches code (k.at position pushed s) (k.at destination pushed s) := by
  refine .step h ?_
  simp [State.execute, State.jump, hl, State.goTo, Context.at]

theorem reaches_jumpFalse {l : Label} {destination : Nat} {v : Value}
    (h : code[position]? = some (.jumpFalse l .pop)) (hl : labelPosition? code l = some destination) :
    Reaches code (k.at position (v :: pushed) s)
      (k.at (if v.isTruthy then position + 1 else destination) pushed s) := by
  refine .step h ?_
  cases hv : v.isTruthy <;>
    simp [State.execute, State.andThen, State.load, State.pop, Stack.pop?, hv, State.next,
      State.jump, hl, State.goTo, Context.at]

theorem simulates_fetch {name : String} (h : code[position]? = some (.mov .push (.slot name))) :
    Simulates code (k.at position pushed s) (fetch name s) (k.Pushed (position + 1) pushed) := by
  cases hv : lookup name s.vars with
  | some v =>
    rw [fetch_of_some hv]
    refine ⟨_, .step h ?_, rfl⟩
    simp [State.execute, State.andThen, State.load, hv, State.store, State.push, Stack.push,
      State.next, State.goTo, Context.at, Bind.bind, Except.bind]
  | none =>
    rw [fetch_of_none hv]
    refine .step h ?_
    simp [State.execute, State.andThen, State.load, hv, State.fail, Bind.bind, Except.bind]

theorem simulates_put {name : String} {v : Value}
    (h : code[position]? = some (Assembly.store name)) :
    Simulates code (k.at position (v :: pushed) s) (put name v s)
      fun _ t o => o = k.at (position + 1) pushed t := by
  refine ⟨_, .step h ?_, rfl⟩
  simp [Assembly.store, State.execute, State.andThen, State.load, State.pop, Stack.pop?,
    State.store, State.next, State.goTo, Context.at, Bind.bind, Except.bind]

theorem simulates_literal {text : String} {v : Value}
    (h : code[position]? = some (.mov .push (.literal text)))
    (hv : Value.ofLiteral? text = some v) :
    Simulates code (k.at position pushed s) ((return v : Exec Value) s)
      (k.Pushed (position + 1) pushed) := by
  refine ⟨_, .step h ?_, rfl⟩
  simp [State.execute, State.andThen, State.load, hv, State.store, State.push, Stack.push,
    State.next, State.goTo, Context.at, Bind.bind, Except.bind]

theorem simulates_constant {literal : String}
    (h : code[position]? = some (.mov .push (.literal (decodeConstant literal)))) :
    Simulates code (k.at position pushed s) (constant literal s)
      (k.Pushed (position + 1) pushed) := by
  unfold constant
  cases hv : Value.ofLiteral? (decodeConstant literal) with
  | some v => exact simulates_literal h hv
  | none =>
    refine .step h ?_
    simp [State.execute, State.andThen, State.load, hv, State.fail, Bind.bind, Except.bind]

theorem simulates_unary {op : UnaryOp} {v : Value} (h : code[position]? = some (stackUnary op)) :
    Simulates code (k.at position (v :: pushed) s) (checked (Value.applyUnary op v) s)
      (k.Pushed (position + 1) pushed) := by
  cases hv : Value.applyUnary op v with
  | ok r =>
    refine ⟨_, .step h ?_, rfl⟩
    simp [stackUnary, State.execute, State.andThen, State.load, State.pop, Stack.pop?, hv,
      Except.mapError, State.store, State.push, Stack.push, State.next, State.goTo, Context.at,
      Bind.bind, Except.bind]
  | error cause =>
    refine .step h ?_
    simp [stackUnary, State.execute, State.andThen, State.load, State.pop, Stack.pop?, hv,
      Except.mapError, State.fail, Bind.bind, Except.bind]

/-- The right operand is on top. -/
theorem simulates_binary {op : BinaryOp} {left right : Value}
    (h : code[position]? = some (stackBinary op)) :
    Simulates code (k.at position (right :: left :: pushed) s)
      (checked (Value.applyBinary op left right) s) (k.Pushed (position + 1) pushed) := by
  cases hv : Value.applyBinary op left right with
  | ok r =>
    refine ⟨_, .step h ?_, rfl⟩
    simp [stackBinary, State.execute, State.andThen, State.load, State.pop, Stack.pop?, hv,
      Except.mapError, State.store, State.push, Stack.push, State.next, State.goTo, Context.at,
      Bind.bind, Except.bind]
  | error cause =>
    refine .step h ?_
    simp [stackBinary, State.execute, State.andThen, State.load, State.pop, Stack.pop?, hv,
      Except.mapError, State.fail, Bind.bind, Except.bind]

/-- An operator without an instruction has no meaning either. -/
theorem simulates_applyUnary {op : Operator} {v : Value} (hop : op.isUnary = true)
    (h : code[position]? = some (operatorInstruction op)) :
    Simulates code (k.at position (v :: pushed) s) (applyUnary op v s)
      (k.Pushed (position + 1) pushed) := by
  rw [operatorInstruction, if_pos hop] at h
  unfold applyUnary
  cases hu : UnaryOp.ofOperator? op with
  | some u =>
    rw [hu] at h
    exact simulates_unary h
  | none => trivial

theorem simulates_applyBinary {op : Operator} {left right : Value} (hop : op.isUnary = false)
    (h : code[position]? = some (operatorInstruction op)) :
    Simulates code (k.at position (right :: left :: pushed) s) (applyBinary op left right s)
      (k.Pushed (position + 1) pushed) := by
  rw [operatorInstruction, hop] at h
  unfold applyBinary
  cases hb : BinaryOp.ofOperator? op with
  | some b =>
    rw [hb] at h
    exact simulates_binary h
  | none => trivial

/-- The increment is on top, and the variable is the right operand. -/
theorem simulates_advance {var : String} {step : Value}
    (h : code[position]? = some (.binary .add (.slot var) .pop (.slot var))) :
    Simulates code (k.at position (step :: pushed) s) (advance var step s)
      fun _ t o => o = k.at (position + 1) pushed t := by
  unfold advance
  cases hv : lookup var s.vars with
  | none =>
    rw [bind_of_error (fetch_of_none hv)]
    refine .step h ?_
    simp [State.execute, State.andThen, State.load, hv, State.fail, Bind.bind, Except.bind]
  | some current =>
    rw [bind_of_ok (fetch_of_some hv)]
    cases hr : Value.applyBinary .add step current with
    | ok next =>
      refine ⟨_, .step h ?_, rfl⟩
      simp [State.execute, State.andThen, State.load, State.pop, Stack.pop?, hv, hr,
        Except.mapError, State.store, State.next, State.goTo, Context.at, Bind.bind, Except.bind]
    | error cause =>
      refine .step h ?_
      simp [State.execute, State.andThen, State.load, State.pop, Stack.pop?, hv, hr,
        Except.mapError, State.fail, Bind.bind, Except.bind]

theorem popMany_pushed (vs below : List Value) :
    (Stack.mk (vs.reverse ++ below)).popMany vs.length = .ok (vs, ⟨below⟩) :=
  Stack.popMany_extend ⟨below⟩ vs

theorem simulates_print {vs : List Value} (h : code[position]? = some (.print vs.length)) :
    Simulates code (k.at position (vs.reverse ++ pushed) s) (print vs s)
      fun _ t o => o = k.at (position + 1) pushed t := by
  refine ⟨_, .step h ?_, rfl⟩
  simp [State.execute, State.print, Context.at, popMany_pushed, State.next, State.goTo]

theorem simulates_readLine {vs : List Value} (h : code[position]? = some (.read vs.length)) :
    Simulates code (k.at position (vs.reverse ++ pushed) s) (readLine s)
      (k.Pushed (position + 1) pushed) := by
  unfold readLine
  rw [get_bind]
  cases hr : s.console.readLine with
  | mk line console =>
    cases line with
    | some line =>
      refine ⟨_, .step h ?_, rfl⟩
      simp only [State.execute, State.read, List.append_assoc, popMany_pushed, hr]
      rfl
    | none =>
      refine .step h ?_
      simp only [State.execute, State.read, List.append_assoc, popMany_pushed, hr]
      rfl

end StackCompiler.Semantics
