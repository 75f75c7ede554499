import StackCompiler.Assembly.Constant
import StackCompiler.Assembly.Instruction
import StackCompiler.Tree.Lowering
import StackCompiler.Tree.Statement

/-!
The machine code of a program. Values of expressions are left on the stack; a function takes its
arguments from there, the last one first, and returns by leaving a value there.
-/

namespace StackCompiler.Assembly

/-- Takes its operands from the stack and leaves its result there. -/
def stackUnary (op : UnaryOp) : Instruction := .unary op .pop .push

def stackBinary (op : BinaryOp) : Instruction := .binary op .pop .pop .push

/-- An operator without an instruction is marked and keeps its number of operands. -/
def operatorInstruction (op : Operator) : Instruction :=
  if op.isUnary then
    match UnaryOp.ofOperator? op with
    | some op => stackUnary op
    | none => .unknown 1
  else
    match BinaryOp.ofOperator? op with
    | some op => stackBinary op
    | none => .unknown 2

/-- Builtins have instructions of their own. -/
def callInstruction (name : String) (count : Nat) : Instruction :=
  match Builtin.ofName? name with
  | some .print => .print count
  | some .read => .read count
  | none => .call (.forFunction name)

def lowering : Lowering Instruction where
  identifier name := .mov .push (.slot name)
  constant literal := .mov .push (.literal (decodeConstant literal))
  operator := operatorInstruction
  call name count arguments :=
    .comment s!"call {name} with {count} args" :: arguments ++ [callInstruction name count]

def store (name : String) : Instruction := .mov (.slot name) .pop

/-- The variable is the right operand of the sum, and the increment, which is one unless given, is
the left one. -/
def increment (var : String) (step : Option Expression) : Code :=
  let amount := match step with
    | some e => lowering.expression e
    | none => [.mov .push (.literal "1")]
  amount ++ [.binary .add (.slot var) .pop (.slot var)]

/-- All comparisons come first and are joined afterwards. -/
def caseTest (scrutinee : Option Expression) (values : List Expression) : Code :=
  (values.flatMap fun value =>
    lowering.value scrutinee ++ lowering.expression value ++ [stackBinary .eq]) ++
  List.replicate (values.length - 1) (stackBinary .or)

mutual

def statement : Statement → Code
  | .assignment a => lowering.value a.value ++ [store a.target]
  | .block b => block b
  | .conditional c => conditional c
  | .loop l => loop l
  | .switch s => switch s
  | .switchExit e => [.jump e.targetLabel]
  | .loopExit e => [.jump e.targetLabel]
  | .ret r => lowering.value r.value ++ [.out]
  | .call c => lowering.callCode c
termination_by structural s => s

def statements : List Statement → Code
  | [] => []
  | s :: rest => statement s ++ statements rest
termination_by structural ss => ss

def block : Block → Code
  | ⟨_, body⟩ => statements body
termination_by structural b => b

/-- A missing block has no code. -/
def body : Option Block → Code
  | some b => block b
  | none => []
termination_by structural b => b

def conditional : Conditional → Code
  | ⟨id, condition, thenBlock, elseBlock⟩ =>
    let c : Conditional := ⟨id, condition, thenBlock, elseBlock⟩
    .comment "if" :: lowering.value condition ++ [.jumpFalse c.elseLabel .pop] ++
      body thenBlock ++ [.jump c.exitLabel, .label c.elseLabel] ++
      body elseBlock ++ [.label c.exitLabel]
termination_by structural c => c

def loop : Loop → Code
  | ⟨id, var, start, stop, step, inner⟩ =>
    let l : Loop := ⟨id, var, start, stop, step, inner⟩
    .comment s!"for {var}" :: lowering.value start ++
      [store var, .label l.conditionLabel, .mov .push (.slot var)] ++
      lowering.value stop ++ [stackBinary .lessEq, .jumpFalse l.exitLabel .pop] ++
      body inner ++ increment var step ++ [.jump l.conditionLabel, .label l.exitLabel]
termination_by structural l => l

def switch : Switch → Code
  | ⟨id, scrutinee, cases, fallback, fallbackSeen⟩ =>
    let s : Switch := ⟨id, scrutinee, cases, fallback, fallbackSeen⟩
    .comment "switch" :: switchCases scrutinee s.exitLabel cases ++ body fallback ++
      [.label s.exitLabel]
termination_by structural s => s

def switchCases (scrutinee : Option Expression) (exit : Label) : List SwitchCase → Code
  | [] => []
  | c :: rest => switchCase scrutinee exit c ++ switchCases scrutinee exit rest
termination_by structural cases => cases

def switchCase (scrutinee : Option Expression) (exit : Label) : SwitchCase → Code
  | ⟨id, values, inner⟩ =>
    let c : SwitchCase := ⟨id, values, inner⟩
    caseTest scrutinee values ++ [.jumpFalse c.skipLabel .pop] ++ body inner ++
      [.jump exit, .label c.skipLabel]
termination_by structural c => c

end

/-- The parameters are stored in reverse order, since the last argument is on top. -/
def function (f : Function) : Code :=
  [.comment f.heading, .label f.label] ++ f.params.reverse.map store ++ body f.body ++
    [.comment f.ending]

def ofProgram (p : Program) : Code := p.functions.flatMap function

end StackCompiler.Assembly
