import StackCompiler.Machine.State

/-!
Running code. One step executes the instruction at the current position; a run is finished when the
entry function returns or when an instruction fails.
-/

namespace StackCompiler.Machine

open Assembly (Code Instruction Operand Target)

/-- Where a run stands. -/
inductive Outcome where
  | running (s : State)
  | halted (result : Except RunError Value) (console : Console)

/-- The first definition of a label counts. -/
def labelPosition? (code : Code) (l : Label) : Option Nat := code.findIdx? (· == .label l)

/-- The function that a run begins with. -/
def entry? (code : Code) : Option Nat :=
  (labelPosition? code (.forFunction "_main_")).or (labelPosition? code (.forFunction "main"))

/-- Runs start behind the label of the entry function, with nothing left of an earlier run. -/
def start (code : Code) (console : Console) : Outcome :=
  match entry? code with
  | some position => .running { position := position + 1, frames := [⟨none, []⟩], console }
  | none => .halted (.error .missingEntry) console

namespace State

def fail (s : State) (cause : RunError) : Outcome := .halted (.error cause) s.console

def goTo (s : State) (position : Nat) : Outcome := .running { s with position }

def next (s : State) : Outcome := s.goTo (s.position + 1)

def push (s : State) (v : Value) : State := { s with values := s.values.push v }

def pop (s : State) : Except RunError (Value × State) :=
  match s.values.pop? with
  | some (v, values) => .ok (v, { s with values })
  | none => .error .emptyStack

def load (s : State) : Operand → Except RunError (Value × State)
  | .pop => s.pop
  | .slot name =>
    match s.frames with
    | [] => .error .noFrame
    | frame :: _ =>
      match lookup name frame.slots with
      | some v => .ok (v, s)
      | none => .error (.unknownVariable name)
  | .literal text =>
    match Value.ofLiteral? text with
    | some v => .ok (v, s)
    | none => .error (.badLiteral text)

def store (s : State) (v : Value) : Target → Except RunError State
  | .push => .ok (s.push v)
  | .slot name =>
    match s.frames with
    | [] => .error .noFrame
    | frame :: rest =>
      .ok { s with frames := { frame with slots := assign name v frame.slots } :: rest }

def jump (code : Code) (s : State) (l : Label) : Outcome :=
  match labelPosition? code l with
  | some position => s.goTo position
  | none => s.fail (.unknownLabel l)

/-- Control comes back behind the call, in a frame that was not touched. -/
def call (code : Code) (s : State) (l : Label) : Outcome :=
  match labelPosition? code l with
  | some position =>
    .running { s with position, frames := ⟨some (s.position + 1), []⟩ :: s.frames }
  | none => s.fail (.unknownLabel l)

/-- The entry function gives the value on top as the result of the run. -/
def leave (s : State) : Outcome :=
  match s.frames with
  | ⟨some position, _⟩ :: rest => .running { s with position, frames := rest }
  | _ =>
    match s.pop with
    | .ok (v, s) => .halted (.ok v) s.console
    | .error cause => s.fail cause

/-- Prints the topmost values on a line, the top one last. -/
def print (s : State) (count : Nat) : Outcome :=
  match s.values.popMany count with
  | .ok (vs, values) =>
    let line := " ".intercalate (vs.map Value.text)
    { s with values, console := s.console.printLine line }.next
  | .error cause => s.fail (.underflow cause)

/-- Drops the topmost values and pushes a line of input. -/
def read (s : State) (count : Nat) : Outcome :=
  match s.values.popMany count with
  | .ok (_, values) =>
    match s.console.readLine with
    | (some line, console) => ({ s with values, console }.push (.ofInput line)).next
    | (none, console) => { s with console }.fail .undecodableInput
  | .error cause => s.fail (.underflow cause)

/-- Goes on with the state of a computation, or stops with its error. -/
def andThen {α : Type} (s : State) (result : Except RunError α) (go : α → Outcome) : Outcome :=
  match result with
  | .ok a => go a
  | .error cause => s.fail cause

/-- Operands are taken from left to right, and the first of two is the right one. -/
def execute (code : Code) (s : State) : Instruction → Outcome
  | .comment _ | .label _ => s.next
  | .mov target source => s.andThen (do
      let (v, s) ← s.load source
      s.store v target) next
  | .unary op source target => s.andThen (do
      let (v, s) ← s.load source
      let v ← (Value.applyUnary op v).mapError .typeMismatch
      s.store v target) next
  | .binary op first second target => s.andThen (do
      let (right, s) ← s.load first
      let (left, s) ← s.load second
      let v ← (Value.applyBinary op left right).mapError .typeMismatch
      s.store v target) next
  | .jump l => s.jump code l
  | .jumpFalse l condition => s.andThen (s.load condition) fun (v, s) =>
      if v.isTruthy then s.next else s.jump code l
  | .call l => s.call code l
  | .out => s.leave
  | .print count => s.print count
  | .read count => s.read count
  | .unknown _ => s.fail (.unknownOperator s.position)

end State

def step (code : Code) (s : State) : Outcome :=
  match code[s.position]? with
  | some instruction => s.execute code instruction
  | none => s.fail .ranOffEnd

/-- Where a run stands after so many more steps. -/
def resume (code : Code) : Nat → Outcome → Outcome
  | _, .halted result console => .halted result console
  | 0, .running s => .running s
  | steps + 1, .running s => resume code steps (step code s)

theorem resume_add (code : Code) (m n : Nat) (o : Outcome) :
    resume code (m + n) o = resume code n (resume code m o) := by
  induction m generalizing o with
  | zero => cases o <;> simp [resume]
  | succ m ih =>
    cases o with
    | halted result console => simp [resume]
    | running s => rw [Nat.succ_add]; exact ih (step code s)

end StackCompiler.Machine
