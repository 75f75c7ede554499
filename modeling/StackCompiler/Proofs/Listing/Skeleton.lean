import StackCompiler.Listing.OfProgram
import StackCompiler.Proofs.Assembly.Linking

/-!
The listing and the machine code of a program have one skeleton: what they say of labels, calls,
operators and returns comes in the same order, although operands, scope marks and the joining of case
tests stand elsewhere or have no counterpart at all.
-/

namespace StackCompiler

/-- The label starts as that of a function does. -/
def Label.isFunction (l : Label) : Bool := "Function_".toList.isPrefixOf l.name.toList

theorem Label.isFunction_iff {l : Label} : l.isFunction ↔ ∃ name, l = .forFunction name := by
  rw [isFunction, List.isPrefixOf_iff_prefix]
  constructor
  · rintro ⟨rest, h⟩
    refine ⟨String.ofList rest, ?_⟩
    have hn : l.name = "Function_" ++ String.ofList rest := by
      apply String.toList_injective
      rw [String.toList_append, ← h]
      exact congrArg ("Function_".toList ++ ·) String.toList_ofList.symm
    cases l
    cases hn
    rfl
  · rintro ⟨name, rfl⟩
    exact ⟨name.toList, String.toList_append.symm⟩

theorem Label.IsLocal.isFunction {l : Label} (h : l.IsLocal) : l.isFunction = false :=
  Bool.eq_false_iff.mpr fun hf => (Label.isFunction_iff.mp hf).elim h

/-- What a program does besides moving values around. -/
inductive Event where
  | define (label : Label)
  | jump (label : Label)
  | jumpElse (label : Label)
  | call (name : String)
  | operator (op : Operator)
  | ret

namespace Listing

/-- A reference counts together with the jump behind it. Operands, assignments, scope marks and the
joining of case tests do not count. -/
def events : List Word → List Event
  | [] => []
  | .define l :: words => .define l :: events words
  | .ref l :: .jump :: words => .jump l :: events words
  | .ref l :: .jumpElse :: words => .jumpElse l :: events words
  | .call name :: words => .call name :: events words
  | .operator op :: words => .operator op :: events words
  | .ret :: words => .ret :: events words
  | _ :: words => events words

end Listing

namespace Assembly

/-- Comments, moves, labels of functions and the joining of case tests do not count. -/
def Instruction.isEvent : Instruction → Bool
  | .comment _ | .mov .. | .binary .or .. => false
  | .label l => !l.isFunction
  | _ => true

/-- A builtin is called by its own instruction. An operator without an instruction, and no other, is
marked as unknown. -/
def Realizes : Event → Instruction → Prop
  | .define l, .label l' => l' = l
  | .jump l, .jump l' => l' = l
  | .jumpElse l, .jumpFalse l' _ => l' = l
  | .call name, .print _ => Builtin.ofName? name = some .print
  | .call name, .read _ => Builtin.ofName? name = some .read
  | .call name, .call l => Builtin.ofName? name = none ∧ l = .forFunction name
  | .operator op, .unary u _ _ => UnaryOp.ofOperator? op = some u
  | .operator op, .binary b _ _ _ => BinaryOp.ofOperator? op = some b
  | .operator op, .unknown _ => UnaryOp.ofOperator? op = none ∧ BinaryOp.ofOperator? op = none
  | .ret, .out => True
  | _, _ => False

open Listing (Word Line events)

/-- The words and the code have the same events, whatever words come next. -/
def Alike (words : List Word) (code : Code) : Prop := ∃ es,
  (∀ rest, events (words ++ rest) = es ++ events rest) ∧
    List.Forall₂ Realizes es (code.filter Instruction.isEvent)

namespace Alike

variable {words words' : List Word} {code code' : Code}

theorem nil : Alike [] [] := ⟨[], fun _ => rfl, .nil⟩

theorem append (h : Alike words code) (h' : Alike words' code') :
    Alike (words ++ words') (code ++ code') := by
  obtain ⟨es, hw, hc⟩ := h
  obtain ⟨es', hw', hc'⟩ := h'
  refine ⟨es ++ es', fun rest => ?_, ?_⟩
  · rw [List.append_assoc, hw, hw', List.append_assoc]
  · rw [List.filter_append]
    exact List.rel_append hc hc'

/-- The word has no counterpart. -/
theorem word {w : Word} (hw : ∀ rest, events (w :: rest) = events rest) : Alike [w] [] :=
  ⟨[], hw, .nil⟩

/-- The instruction has no counterpart. -/
theorem instruction {i : Instruction} (hi : i.isEvent = false) : Alike [] [i] :=
  ⟨[], fun _ => rfl, by simp [hi]⟩

theorem event {e : Event} {i : Instruction} (hw : ∀ rest, events (words ++ rest) = e :: events rest)
    (hi : i.isEvent = true) (h : Realizes e i) : Alike words [i] :=
  ⟨[e], hw, by simpa [hi] using h⟩

theorem move (target : Target) (source : Operand) : Alike [] [.mov target source] := instruction rfl

theorem define {l : Label} (h : l.IsLocal) : Alike [.define l] [.label l] :=
  event (e := .define l) (fun _ => rfl) (by simp [Instruction.isEvent, h.isFunction]) rfl

theorem jump (l : Label) : Alike [.ref l, .jump] [.jump l] :=
  event (e := .jump l) (fun _ => rfl) rfl rfl

theorem jumpElse (l : Label) : Alike [.ref l, .jumpElse] [.jumpFalse l .pop] :=
  event (e := .jumpElse l) (fun _ => rfl) rfl rfl

theorem operator (op : Operator) : Alike [.operator op] [operatorInstruction op] := by
  have hw (rest : List Word) : events (.operator op :: rest) = .operator op :: events rest := rfl
  cases op with
  | other symbol => exact event hw rfl ⟨rfl, rfl⟩
  | power => exact event hw rfl ⟨rfl, rfl⟩
  | _ => exact event hw rfl rfl

theorem call (name : String) (count : Nat) :
    Alike [.call name] [callInstruction name count] := by
  have hw (rest : List Word) : events (.call name :: rest) = .call name :: events rest := rfl
  unfold callInstruction
  split
  · next h => exact event hw rfl h
  · next h => exact event hw rfl h
  · next h => exact event hw rfl ⟨h, rfl⟩

end Alike

theorem relates_lowering : Lowering.Relates Alike Listing.lowering Assembly.lowering where
  nil := .nil
  append := .append
  identifier name := (Alike.word fun _ => rfl).append (.move .push (.slot name))
  constant literal :=
    (Alike.word fun _ => rfl).append (.move .push (.literal (decodeConstant literal)))
  operator := .operator
  call name count _ _ h :=
    ((Alike.instruction (i := .comment _) rfl).append h).append (.call name count)

theorem alike_value (e : Option Expression) :
    Alike (Listing.lowering.value e) (lowering.value e) := relates_lowering.value e

theorem alike_increment (var : String) (step : Option Expression) :
    Alike (Listing.increment var step).words (increment var step) := by
  have sum : Alike [.operator .add, .assign] [.binary .add (.slot var) .pop (.slot var)] :=
    .event (e := .operator .add) (fun _ => rfl) rfl rfl
  have twice : Alike [.operand var, .operand var] [] :=
    (Alike.word fun _ => rfl).append (Alike.word fun _ => rfl)
  cases step with
  | some e => exact twice.append ((relates_lowering.expression e).append sum)
  | none =>
    have one : Alike [.operand "1"] [.mov .push (.literal "1")] :=
      (Alike.word fun _ => rfl).append (.move .push (.literal "1"))
    exact twice.append (one.append sum)

/-- The listing joins each result to those before it, the code joins them all in the end. -/
theorem alike_caseTest (scrutinee : Option Expression) (values : List Expression) :
    Alike (Listing.caseTest scrutinee values) (caseTest scrutinee values) := by
  have compare (e : Expression) : Alike
      (Listing.lowering.value scrutinee ++ Listing.lowering.expression e ++ [.operator .equal])
      (lowering.value scrutinee ++ lowering.expression e ++ [stackBinary .eq]) :=
    ((alike_value scrutinee).append (relates_lowering.expression e)).append (.operator .equal)
  have joined (count : Nat) : Alike [] (List.replicate count (stackBinary .or)) := by
    induction count with
    | zero => exact .nil
    | succ count ih => exact (Alike.instruction rfl).append ih
  cases values with
  | nil => exact .nil
  | cons first later =>
    have rest : Alike
        (later.flatMap fun e => Listing.lowering.value scrutinee ++
          Listing.lowering.expression e ++ [.operator .equal] ++ [.or])
        (later.flatMap fun e => lowering.value scrutinee ++ lowering.expression e ++
          [stackBinary .eq]) :=
      relates_lowering.flatMap fun e _ => by
        simpa using (compare e).append (Alike.word (w := .or) fun _ => rfl)
    simpa [Listing.caseTest, caseTest] using ((compare first).append rest).append (joined later.length)

mutual

theorem alike_statement (s : Statement) :
    Alike (Listing.words (Listing.statement s)) (statement s) := by
  cases s with
  | assignment a =>
    have value := (Alike.word (w := .operand a.target) fun _ => rfl).append (alike_value a.value)
    have stored := value.append
      ((Alike.word (w := .assign) fun _ => rfl).append (.move (.slot a.target) .pop))
    simpa [Listing.words, Listing.statement, Line.words, statement, store] using stored
  | block b => exact alike_block b
  | conditional c => exact alike_conditional c
  | loop l => exact alike_loop l
  | switch s => exact alike_switch s
  | switchExit e => exact .jump e.targetLabel
  | loopExit e => exact .jump e.targetLabel
  | ret r =>
    have out : Alike [.ret] [.out] := .event (e := .ret) (fun _ => rfl) rfl trivial
    simpa [Listing.words, Listing.statement, Line.words, statement] using
      (alike_value r.value).append out
  | call c =>
    simpa [Listing.words, Listing.statement, Line.words, statement] using
      relates_lowering.callCode c

theorem alike_statements (ss : List Statement) :
    Alike (Listing.words (Listing.statements ss)) (statements ss) := by
  cases ss with
  | nil => exact .nil
  | cons s ss =>
    simpa [Listing.words, Listing.statements, statements] using
      (alike_statement s).append (alike_statements ss)

theorem alike_block (b : Block) : Alike (Listing.words (Listing.block b)) (block b) := by
  obtain ⟨id, ss⟩ := b
  exact alike_statements ss

theorem alike_body (b : Option Block) : Alike (Listing.words (Listing.body b)) (body b) := by
  cases b with
  | none => exact .nil
  | some b => exact alike_block b

theorem alike_conditional (c : Conditional) :
    Alike (Listing.words (Listing.conditional c)) (conditional c) := by
  obtain ⟨id, condition, thenBlock, elseBlock⟩ := c
  have test := ((Alike.instruction (i := .comment "if") rfl).append (alike_value condition)).append
    (.jumpElse (.forNode "Else" .conditional (some id)))
  have other := (Alike.jump (.forNode "Exit" .conditional (some id))).append
    (.define (Node.elseLabel_isLocal ⟨id, condition, thenBlock, elseBlock⟩))
  have exit := Alike.define (Node.exitLabel_isLocal .conditional (some id))
  simpa [Listing.words, Listing.conditional, Line.words, Listing.jump, Listing.define,
    Conditional.elseLabel, Conditional.exitLabel, conditional] using
    (test.append (alike_body thenBlock)).append (other.append ((alike_body elseBlock).append exit))

theorem alike_loop (l : Loop) : Alike (Listing.words (Listing.loop l)) (loop l) := by
  obtain ⟨id, var, start, stop, step, inner⟩ := l
  have first := ((Alike.word (w := .stepIn) fun _ => rfl).append
    ((Alike.instruction (i := .comment s!"for {var}") rfl).append
      ((Alike.word (w := .operand var) fun _ => rfl).append (alike_value start)))).append
    ((Alike.word (w := .assign) fun _ => rfl).append (.move (.slot var) .pop))
  have test := ((Alike.define (Node.conditionLabel_isLocal ⟨id, var, start, stop, step, inner⟩)).append
    ((Alike.word (w := .operand var) fun _ => rfl).append (.move .push (.slot var)))).append
    ((alike_value stop).append
      ((Alike.operator .lessOrEqual).append (.jumpElse (.forNode "Exit" .loop (some id)))))
  have back := ((alike_increment var step).append
    (.jump (.forNode "Condition" .loop (some id)))).append
      ((Alike.define (Node.exitLabel_isLocal .loop (some id))).append
        (Alike.word (w := .stepOut) fun _ => rfl))
  simpa [Listing.words, Listing.loop, Line.words, Listing.jump, Listing.jumpElse,
    Loop.conditionLabel, Loop.exitLabel, loop, store, operatorInstruction, Operator.isUnary,
    BinaryOp.ofOperator?] using
    (first.append test).append ((alike_body inner).append back)

theorem alike_switch (s : Switch) : Alike (Listing.words (Listing.switch s)) (switch s) := by
  obtain ⟨id, scrutinee, cases, fallback, fallbackSeen⟩ := s
  have start := (Alike.word (w := .stepIn) fun _ => rfl).append
    (Alike.instruction (i := .comment "switch") rfl)
  have exit := (Alike.define (Node.exitLabel_isLocal .switch (some id))).append
    (Alike.word (w := .stepOut) fun _ => rfl)
  simpa [Listing.words, Listing.switch, Line.words, Switch.exitLabel, switch] using
    (start.append (alike_switchCases scrutinee (.forNode "Exit" .switch (some id)) cases)).append
      ((alike_body fallback).append exit)

theorem alike_switchCases (scrutinee : Option Expression) (exit : Label) (cases : List SwitchCase) :
    Alike (Listing.words (Listing.switchCases scrutinee exit cases))
      (switchCases scrutinee exit cases) := by
  match cases with
  | [] => exact .nil
  | c :: rest =>
    simpa [Listing.words, Listing.switchCases, switchCases] using
      (alike_switchCase scrutinee exit c).append (alike_switchCases scrutinee exit rest)

theorem alike_switchCase (scrutinee : Option Expression) (exit : Label) (c : SwitchCase) :
    Alike (Listing.words (Listing.switchCase scrutinee exit c)) (switchCase scrutinee exit c) := by
  obtain ⟨id, values, inner⟩ := c
  have test := (alike_caseTest scrutinee values).append
    (.jumpElse (.forNode "Skip" .switchCase (some id)))
  have leave := (Alike.jump exit).append (.define (Node.skipLabel_isLocal ⟨id, values, inner⟩))
  simpa [Listing.words, Listing.switchCase, Line.words, Listing.jump, Listing.jumpElse,
    Listing.define, SwitchCase.skipLabel, switchCase] using
    (test.append (alike_body inner)).append leave

end

/-- The label of a function has no counterpart in the listing. -/
theorem alike_function (f : Function) : Alike (Listing.words (Listing.function f)) (function f) := by
  have heading := (Alike.instruction (i := .comment f.heading) rfl).append
    (.instruction (i := .label f.label) (by
      have hf : f.label.isFunction := Label.isFunction_iff.mpr ⟨f.name, rfl⟩
      simp [Instruction.isEvent, hf]))
  have stores (names : List String) : Alike [] (names.map store) := by
    induction names with
    | nil => exact .nil
    | cons name names ih => exact (Alike.move (.slot name) .pop).append ih
  simpa [Listing.words, Listing.function, Line.words, function] using
    (heading.append (stores f.params.reverse)).append
      ((alike_body f.body).append (.instruction (i := .comment f.ending) rfl))

/-- Whatever is missing or wrong in the program, its listing and its code define the same labels,
jump to them, call, compute and return in the same order. An operator becomes its instruction, or is
marked as unknown exactly if it has none. -/
theorem same_events (p : Program) : List.Forall₂ Realizes
    (events (Listing.words (Listing.ofProgram p))) ((ofProgram p).filter Instruction.isEvent) := by
  have whole : Alike (Listing.words (Listing.ofProgram p)) (ofProgram p) := by
    rw [Listing.words, Listing.ofProgram, List.flatMap_assoc]
    exact relates_lowering.flatMap fun f _ => alike_function f
  obtain ⟨es, hw, hc⟩ := whole
  have same : events (Listing.words (Listing.ofProgram p)) = es := by
    simpa [events] using hw []
  rwa [same]

end Assembly

end StackCompiler
