import StackCompiler.Listing.Line
import StackCompiler.Tree.Lowering
import StackCompiler.Tree.Statement

/-!
The listing of a program. Control flow is written with labels and jumps; loops and switches are
framed by marks for stepping into their scope and out of it.
-/

namespace StackCompiler.Listing

/-- Constants are listed as they were written. -/
def lowering : Lowering Word where
  identifier := .operand
  constant := .operand
  operator := .operator
  call name _ arguments := arguments ++ [.call name]

def define (label : Label) : Line := .code [.define label]

def jump (label : Label) : Line := .code [.ref label, .jump]

def jumpElse (label : Label) : Line := .code [.ref label, .jumpElse]

/-- The variable is set to its sum with the increment, which is one unless given. -/
def increment (var : String) (step : Option Expression) : Line :=
  let amount := match step with
    | some e => lowering.expression e
    | none => [.operand "1"]
  .code ([.operand var, .operand var] ++ amount ++ [.operator .add, .assign])

/-- The scrutinee is compared with each value; each result but the first is joined to those before
it. -/
def caseTest (scrutinee : Option Expression) : List Expression → List Word
  | [] => []
  | first :: later =>
    let compare (value : Expression) : List Word :=
      lowering.value scrutinee ++ lowering.expression value ++ [.operator .equal]
    compare first ++ later.flatMap fun value => compare value ++ [.or]

mutual

def statement : Statement → List Line
  | .assignment a => [.code (.operand a.target :: lowering.value a.value ++ [.assign])]
  | .block b => block b
  | .conditional c => conditional c
  | .loop l => loop l
  | .switch s => switch s
  | .switchExit e => [jump e.targetLabel]
  | .loopExit e => [jump e.targetLabel]
  | .ret r => [.code (lowering.value r.value ++ [.ret])]
  | .call c => [.code (lowering.callCode c)]
termination_by structural s => s

def statements : List Statement → List Line
  | [] => []
  | s :: rest => statement s ++ statements rest
termination_by structural ss => ss

def block : Block → List Line
  | ⟨_, body⟩ => statements body
termination_by structural b => b

/-- A missing block has no lines. -/
def body : Option Block → List Line
  | some b => block b
  | none => []
termination_by structural b => b

def conditional : Conditional → List Line
  | ⟨id, condition, thenBlock, elseBlock⟩ =>
    let c : Conditional := ⟨id, condition, thenBlock, elseBlock⟩
    .code (lowering.value condition ++ [.ref c.elseLabel, .jumpElse]) :: body thenBlock ++
      [jump c.exitLabel, define c.elseLabel] ++ body elseBlock ++ [define c.exitLabel]
termination_by structural c => c

def loop : Loop → List Line
  | ⟨id, var, start, stop, step, inner⟩ =>
    let l : Loop := ⟨id, var, start, stop, step, inner⟩
    [.code [.stepIn], .code (.operand var :: lowering.value start ++ [.assign]),
      .code ([.define l.conditionLabel, .operand var] ++ lowering.value stop ++
        [.operator .lessOrEqual]),
      jumpElse l.exitLabel] ++ body inner ++
    [increment var step, jump l.conditionLabel, .code [.define l.exitLabel, .stepOut]]
termination_by structural l => l

def switch : Switch → List Line
  | ⟨id, scrutinee, cases, fallback, fallbackSeen⟩ =>
    let s : Switch := ⟨id, scrutinee, cases, fallback, fallbackSeen⟩
    .code [.stepIn] :: switchCases scrutinee s.exitLabel cases ++ body fallback ++
      [.code [.define s.exitLabel, .stepOut]]
termination_by structural s => s

def switchCases (scrutinee : Option Expression) (exit : Label) : List SwitchCase → List Line
  | [] => []
  | c :: rest => switchCase scrutinee exit c ++ switchCases scrutinee exit rest
termination_by structural cases => cases

def switchCase (scrutinee : Option Expression) (exit : Label) : SwitchCase → List Line
  | ⟨id, values, inner⟩ =>
    let c : SwitchCase := ⟨id, values, inner⟩
    [.code (caseTest scrutinee values), jumpElse c.skipLabel] ++ body inner ++
      [jump exit, define c.skipLabel]
termination_by structural c => c

end

/-- Comments frame the lines of a function. -/
def function (f : Function) : List Line :=
  .comment f.heading :: body f.body ++ [.comment f.ending, .blank]

def ofProgram (p : Program) : List Line := p.functions.flatMap function

end StackCompiler.Listing
