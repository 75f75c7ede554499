import StackCompiler.Proofs.Assembly.Layout
import StackCompiler.Proofs.Machine.Effect

/-!
What every instruction of a program takes from the stack and gives to the rest of its statement. A
call that is a statement gives nothing, since nothing comes for the value that it leaves.
-/

namespace StackCompiler

namespace Assembly

structure Entry where
  instruction : Instruction
  takes : Nat
  gives : Nat
deriving DecidableEq

def Entry.of (i : Instruction) : Entry := ⟨i, i.takes, i.gives⟩

namespace Ledger

/-- Within an expression a call takes its arguments and gives its value. -/
def lowering : Lowering Entry where
  identifier name := .of (.mov .push (.slot name))
  constant literal := .of (.mov .push (.literal (decodeConstant literal)))
  operator op := .of (operatorInstruction op)
  call name count arguments :=
    .of (.comment s!"call {name} with {count} args") :: arguments ++
      [⟨callInstruction name count, count, 1⟩]

def increment (var : String) (step : Option Expression) : List Entry :=
  (match step with
    | some e => lowering.expression e
    | none => [.of (.mov .push (.literal "1"))]) ++
  [.of (.binary .add (.slot var) .pop (.slot var))]

def caseTest (scrutinee : Option Expression) (values : List Expression) : List Entry :=
  (values.flatMap fun value =>
    lowering.value scrutinee ++ lowering.expression value ++ [.of (stackBinary .eq)]) ++
  List.replicate (values.length - 1) (.of (stackBinary .or))

/-- The value of a call statement is not given to anything. -/
def callStatement (c : Call) : List Entry :=
  .of (.comment s!"call {c.name} with {c.args.length} args") ::
    c.args.flatMap lowering.expression ++ [⟨callInstruction c.name c.args.length, c.args.length, 0⟩]

mutual

def statement : Statement → List Entry
  | .assignment a => lowering.value a.value ++ [.of (store a.target)]
  | .block b => block b
  | .conditional c => conditional c
  | .loop l => loop l
  | .switch s => switch s
  | .switchExit e => [.of (.jump e.targetLabel)]
  | .loopExit e => [.of (.jump e.targetLabel)]
  | .ret r => lowering.value r.value ++ [.of .out]
  | .call c => callStatement c
termination_by structural s => s

def statements : List Statement → List Entry
  | [] => []
  | s :: rest => statement s ++ statements rest
termination_by structural ss => ss

def block : Block → List Entry
  | ⟨_, body⟩ => statements body
termination_by structural b => b

def body : Option Block → List Entry
  | some b => block b
  | none => []
termination_by structural b => b

def conditional : Conditional → List Entry
  | ⟨id, condition, thenBlock, elseBlock⟩ =>
    let c : Conditional := ⟨id, condition, thenBlock, elseBlock⟩
    .of (.comment "if") :: lowering.value condition ++ [.of (.jumpFalse c.elseLabel .pop)] ++
      body thenBlock ++ [.of (.jump c.exitLabel), .of (.label c.elseLabel)] ++
      body elseBlock ++ [.of (.label c.exitLabel)]
termination_by structural c => c

def loop : Loop → List Entry
  | ⟨id, var, start, stop, step, inner⟩ =>
    let l : Loop := ⟨id, var, start, stop, step, inner⟩
    .of (.comment s!"for {var}") :: lowering.value start ++
      [.of (store var), .of (.label l.conditionLabel), .of (.mov .push (.slot var))] ++
      lowering.value stop ++ [.of (stackBinary .lessEq), .of (.jumpFalse l.exitLabel .pop)] ++
      body inner ++ increment var step ++ [.of (.jump l.conditionLabel), .of (.label l.exitLabel)]
termination_by structural l => l

def switch : Switch → List Entry
  | ⟨id, scrutinee, cases, fallback, fallbackSeen⟩ =>
    let s : Switch := ⟨id, scrutinee, cases, fallback, fallbackSeen⟩
    .of (.comment "switch") :: switchCases scrutinee s.exitLabel cases ++ body fallback ++
      [.of (.label s.exitLabel)]
termination_by structural s => s

def switchCases (scrutinee : Option Expression) (exit : Label) : List SwitchCase → List Entry
  | [] => []
  | c :: rest => switchCase scrutinee exit c ++ switchCases scrutinee exit rest
termination_by structural cases => cases

def switchCase (scrutinee : Option Expression) (exit : Label) : SwitchCase → List Entry
  | ⟨id, values, inner⟩ =>
    let c : SwitchCase := ⟨id, values, inner⟩
    caseTest scrutinee values ++ [.of (.jumpFalse c.skipLabel .pop)] ++ body inner ++
      [.of (.jump exit), .of (.label c.skipLabel)]
termination_by structural c => c

end

/-- What follows the heading. The arguments are there when control comes to the label. -/
def functionBody (f : Function) : List Entry :=
  ⟨.label f.label, f.params.length, f.params.length⟩ ::
    f.params.reverse.map (fun name => .of (store name)) ++ body f.body ++ [.of (.comment f.ending)]

def function (f : Function) : List Entry := .of (.comment f.heading) :: functionBody f

def ofProgram (p : Program) : List Entry := p.functions.flatMap function

theorem maps_lowering : Lowering.Maps Entry.instruction lowering Assembly.lowering where
  identifier _ := rfl
  constant _ := rfl
  operator _ := rfl
  call name count arguments := by
    simp only [lowering, Assembly.lowering, List.map_cons, List.map_append, List.map_nil]
    rfl

theorem map_increment (var : String) (step : Option Expression) :
    (increment var step).map Entry.instruction = Assembly.increment var step := by
  cases step with
  | none => rfl
  | some e =>
    rw [increment, List.map_append, maps_lowering.expression]
    rfl

theorem map_caseTest (scrutinee : Option Expression) (values : List Expression) :
    (caseTest scrutinee values).map Entry.instruction = Assembly.caseTest scrutinee values := by
  simp only [caseTest, Assembly.caseTest, List.map_append, List.map_flatMap, List.map_cons,
    List.map_nil, List.map_replicate, maps_lowering.expression, maps_lowering.value]
  rfl

theorem map_callStatement (c : Call) :
    (callStatement c).map Entry.instruction = Assembly.lowering.callCode c := by
  rw [callStatement, callCode_eq]
  simp only [List.map_cons, List.map_append, List.map_flatMap, maps_lowering.expression,
    List.map_nil]
  rfl

mutual

theorem map_statement (s : Statement) :
    (statement s).map Entry.instruction = Assembly.statement s := by
  cases s with
  | assignment a => simp [statement, Assembly.statement, maps_lowering.value, Entry.of]
  | block b => exact map_block b
  | conditional c => exact map_conditional c
  | loop l => exact map_loop l
  | switch s => exact map_switch s
  | switchExit e => rfl
  | loopExit e => rfl
  | ret r => simp [statement, Assembly.statement, maps_lowering.value, Entry.of]
  | call c => exact map_callStatement c

theorem map_statements (ss : List Statement) :
    (statements ss).map Entry.instruction = Assembly.statements ss := by
  cases ss with
  | nil => rfl
  | cons s ss => simp [statements, Assembly.statements, map_statement s, map_statements ss]

theorem map_block (b : Block) : (block b).map Entry.instruction = Assembly.block b := by
  obtain ⟨id, ss⟩ := b
  exact map_statements ss

theorem map_body (b : Option Block) : (body b).map Entry.instruction = Assembly.body b := by
  cases b with
  | none => rfl
  | some b => exact map_block b

theorem map_conditional (c : Conditional) :
    (conditional c).map Entry.instruction = Assembly.conditional c := by
  obtain ⟨id, condition, thenBlock, elseBlock⟩ := c
  simp [conditional, Assembly.conditional, maps_lowering.value, Entry.of, map_body thenBlock,
    map_body elseBlock]

theorem map_loop (l : Loop) : (loop l).map Entry.instruction = Assembly.loop l := by
  obtain ⟨id, var, start, stop, step, inner⟩ := l
  simp [loop, Assembly.loop, maps_lowering.value, Entry.of, map_body inner, map_increment]

theorem map_switch (s : Switch) : (switch s).map Entry.instruction = Assembly.switch s := by
  obtain ⟨id, scrutinee, cases, fallback, fallbackSeen⟩ := s
  simp [switch, Assembly.switch, Entry.of, map_body fallback, map_switchCases scrutinee _ cases]

theorem map_switchCases (scrutinee : Option Expression) (exit : Label) (cases : List SwitchCase) :
    (switchCases scrutinee exit cases).map Entry.instruction =
      Assembly.switchCases scrutinee exit cases := by
  match cases with
  | [] => rfl
  | c :: rest =>
    simp [switchCases, Assembly.switchCases, map_switchCase scrutinee exit c,
      map_switchCases scrutinee exit rest]

theorem map_switchCase (scrutinee : Option Expression) (exit : Label) (c : SwitchCase) :
    (switchCase scrutinee exit c).map Entry.instruction =
      Assembly.switchCase scrutinee exit c := by
  obtain ⟨id, values, inner⟩ := c
  simp [switchCase, Assembly.switchCase, map_caseTest, Entry.of, map_body inner]

end

theorem map_function (f : Function) :
    (function f).map Entry.instruction = Assembly.function f := by
  simp [function, functionBody, Assembly.function, map_body, Entry.of]

/-- The ledger goes through the code, instruction by instruction. -/
theorem map_ofProgram (p : Program) :
    (ofProgram p).map Entry.instruction = Assembly.ofProgram p := by
  simp [ofProgram, Assembly.ofProgram, List.map_flatMap, map_function]

end Ledger

end Assembly

end StackCompiler
