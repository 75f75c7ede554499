import StackCompiler.Listing.OfProgram
import StackCompiler.Proofs.Machine.Sum
import StackCompiler.Proofs.Semantics.Statements
import StackCompiler.Proofs.Tree.Group

/-!
How a loop advances its variable. In the listing the increment reads as the assignment of variable
plus step; the code of the increment adds the other way round. For numbers this is the same, but where
the sum is a text, the code puts the step in front of the variable and the assignment puts it behind.
-/

namespace StackCompiler

/-- The tokens of the step, kept together. A loop without a step counts by one. -/
def Loop.stepTokens (l : Loop) : List (Token Leaf) :=
  match l.increment with
  | some e => .opening :: e.tokens ++ [.closing]
  | none => [.leaf (.constant ⟨l.id, "1"⟩)]

/-- The assignment of variable plus step to the variable. -/
def Loop.advancing (l : Loop) : Assignment where
  id := l.id
  target := l.var
  value := some ⟨l.id, .leaf (.identifier ⟨l.id, l.var⟩) :: .operator .add :: l.stepTokens⟩

def Lowering.amount {ω : Type} (target : Lowering ω) : Option Expression → List ω
  | some e => target.expression e
  | none => [target.constant "1"]

/-- The step is a group of its own, so that nothing within it takes the variable for an operand. -/
theorem Lowering.value_advancing {ω : Type} (target : Lowering ω) {l : Loop}
    (balanced : ∀ e ∈ l.increment, Token.balanced e.tokens) :
    target.value l.advancing.value =
      target.identifier l.var :: target.amount l.increment ++ [target.operator .add] := by
  have first : Expression.order
      ⟨l.id, .leaf (.identifier ⟨l.id, l.var⟩) :: .operator .add :: l.stepTokens⟩ =
        .operand (.identifier ⟨l.id, l.var⟩) :: orderFrom [.operator .add] l.stepTokens := rfl
  rw [Loop.advancing, Lowering.value, expression_eq, first, List.flatMap_cons]
  unfold Loop.stepTokens
  cases hi : l.increment with
  | none => rfl
  | some e =>
    have group : orderFrom [.operator .add] (.opening :: e.tokens ++ [.closing]) =
        e.order ++ [.apply .add] := orderFrom_group [] (balanced e hi) [.operator .add] []
    simp only [group, List.flatMap_append, amount, expression_eq]
    rfl

namespace Semantics

open Assembly Machine

/-- In the listing the increment is the line of the assignment. -/
theorem listing_advancing {l : Loop} (balanced : ∀ e ∈ l.increment, Token.balanced e.tokens) :
    Listing.statement (.assignment l.advancing) = [Listing.increment l.var l.increment] := by
  have line : Listing.increment l.var l.increment = .code ([.operand l.var, .operand l.var] ++
      Listing.lowering.amount l.increment ++ [.operator .add, .assign]) := by
    cases l.increment <;> rfl
  rw [Listing.statement, Lowering.value_advancing _ balanced, line, List.append_assoc]
  simp [Loop.advancing, Listing.lowering]

theorem decodeConstant_one : decodeConstant "1" = "1" := by decide +kernel

theorem amount_lowering (step : Option Expression) : lowering.amount step = amountCode step := by
  cases step with
  | none => exact congrArg (fun text => [Instruction.mov .push (.literal text)]) decodeConstant_one
  | some e => rfl

theorem code_advancing {l : Loop} (balanced : ∀ e ∈ l.increment, Token.balanced e.tokens) :
    statement (.assignment l.advancing) = .mov .push (.slot l.var) ::
      (amountCode l.increment ++ [stackBinary .add, store l.var]) := by
  rw [statement, Lowering.value_advancing _ balanced, amount_lowering, List.append_assoc]
  rfl

/-- Wherever the part stands in the code, it leaves the value on top of what is there. -/
def Yields (code : Code) (k : Context) (part : Code) (s : Store) (v : Value) (t : Store) : Prop :=
  ∀ {position : Nat} {pushed : List Value}, CodeAt code position part →
    Reaches code (k.at position pushed s) (k.at (position + part.length) (v :: pushed) t)

def Store.set (s : Store) (name : String) (v : Value) : Store :=
  { s with vars := assign name v s.vars }

variable {code : Code} {k : Context} {l : Loop} {s t : Store} {current step : Value}
  {position : Nat} {pushed : List Value}

/-- The sum of the increment has the step for its left operand. -/
theorem resume_sum (h : code[position]? = some (.binary .add (.slot l.var) .pop (.slot l.var)))
    (hv : lookup l.var t.vars = some current) :
    resume code 1 (k.at position (step :: pushed) t) =
      k.at (position + 1) pushed (t.set l.var (step.sum current)) := by
  simp [resume, Context.at, Machine.step, h, State.execute, State.andThen, State.load, State.pop,
    Stack.pop?, hv, Value.applyBinary_add, Except.mapError, State.store, State.next, State.goTo,
    Store.set, Bind.bind, Except.bind]

theorem reaches_increment (hc : CodeAt code position (increment l.var l.increment))
    (hstep : Yields code k (amountCode l.increment) s step t)
    (hv : lookup l.var t.vars = some current) :
    Reaches code (k.at position pushed s)
      (k.at (position + (increment l.var l.increment).length) pushed
        (t.set l.var (step.sum current))) := by
  rw [increment_eq, codeAt_append, codeAt_cons] at hc
  rw [increment_eq, List.length_append, ← Nat.add_assoc]
  exact (hstep hc.1).trans ⟨1, resume_sum hc.2.1 hv⟩

/-- In the assignment the step is the right operand, as in any other operation. -/
theorem reaches_advancing (balanced : ∀ e ∈ l.increment, Token.balanced e.tokens)
    (hc : CodeAt code position (statement (.assignment l.advancing)))
    (hstep : Yields code k (amountCode l.increment) s step t)
    (hv : lookup l.var s.vars = some current) :
    Reaches code (k.at position pushed s)
      (k.at (position + (statement (.assignment l.advancing)).length) pushed
        (t.set l.var (current.sum step))) := by
  rw [code_advancing balanced] at hc ⊢
  rw [codeAt_cons, codeAt_append, codeAt_cons, codeAt_cons] at hc
  obtain ⟨hfetch, hamount, hadd, hstore, -⟩ := hc
  have fetched : Simulates code (k.at position pushed s) (fetch l.var s)
      (k.Pushed (position + 1) pushed) := simulates_fetch hfetch
  rw [fetch_of_some hv] at fetched
  obtain ⟨o, onCurrent, rfl⟩ := fetched
  have onStep : Reaches code _ (k.at _ (step :: current :: pushed) t) := hstep hamount
  have added : Simulates code _ (checked (Value.applyBinary .add current step) t)
      (k.Pushed _ pushed) := simulates_binary hadd
  rw [Value.applyBinary_add] at added
  obtain ⟨o, onSum, rfl⟩ := added
  have put : Simulates code (k.at _ (current.sum step :: pushed) t)
      (put l.var (current.sum step) t) _ := simulates_put hstore
  obtain ⟨o, stored, rfl⟩ := put
  have length : position + (Instruction.mov .push (.slot l.var) ::
      (amountCode l.increment ++ [stackBinary .add, store l.var])).length =
        position + 1 + (amountCode l.increment).length + 1 + 1 := by
    simp only [List.length_append, List.length_cons, List.length_nil]
    omega
  rw [length]
  exact onCurrent.trans (onStep.trans (onSum.trans stored))

/-- What the listing says with one line, the code does in two ways: the increment stores the sum of
step and variable, the assignment the sum of variable and step. These are the same if both are numbers
or if their texts go together either way, and only then. -/
theorem increment_adds_step_first (balanced : ∀ e ∈ l.increment, Token.balanced e.tokens)
    (hstep : Yields code k (amountCode l.increment) s step t)
    (hs : lookup l.var s.vars = some current) (ht : lookup l.var t.vars = some current) :
    Listing.statement (.assignment l.advancing) = [Listing.increment l.var l.increment] ∧
      ∃ stepFirst stepLast, Value.applyBinary .add step current = .ok stepFirst ∧
        Value.applyBinary .add current step = .ok stepLast ∧
        (∀ {position pushed}, CodeAt code position (increment l.var l.increment) →
          Reaches code (k.at position pushed s)
            (k.at (position + (increment l.var l.increment).length) pushed
              (t.set l.var stepFirst))) ∧
        (∀ {position pushed}, CodeAt code position (statement (.assignment l.advancing)) →
          Reaches code (k.at position pushed s)
            (k.at (position + (statement (.assignment l.advancing)).length) pushed
              (t.set l.var stepLast))) ∧
        (stepFirst = stepLast ↔ (step.isNumber ∧ current.isNumber) ∨
          step.text ++ current.text = current.text ++ step.text) := by
  refine ⟨listing_advancing balanced, step.sum current, current.sum step,
    Value.applyBinary_add _ _, Value.applyBinary_add _ _, ?_, ?_, Value.sum_comm_iff step current⟩
  · intro position pushed hc
    exact reaches_increment hc hstep ht
  · intro position pushed hc
    exact reaches_advancing balanced hc hstep hs

/-- Counts by a text. -/
def textLoop : Loop where
  id := 0
  var := "i"
  start := none
  stop := none
  increment := some ⟨1, [.leaf (.constant ⟨2, "\"b\""⟩)]⟩
  body := none

/-- The increment, and behind it the assignment. -/
def textCode : Code :=
  increment "i" textLoop.increment ++ statement (.assignment textLoop.advancing)

/-- Where nothing called the code, as in the main function. -/
def Context.bottom : Context := ⟨none, [], []⟩

/-- Control is at the position, and the variable has this text. -/
def textAt (position : Nat) (text : String) : Outcome :=
  Context.bottom.at position [] ⟨[("i", .str text)], {}⟩

theorem increment_adds_step_first_text :
    Reaches textCode (textAt 0 "a") (textAt 2 "ba") ∧
      Reaches textCode (textAt 2 "a") (textAt 6 "ab") := by
  have yields : Yields textCode .bottom (amountCode textLoop.increment) ⟨[("i", .str "a")], {}⟩
      (.str "b") ⟨[("i", .str "a")], {}⟩ := by
    intro position pushed hc
    have push : textCode[position]? = some (.mov .push (.literal "\"b\"")) := (codeAt_cons.mp hc).1
    obtain ⟨o, reach, rfl⟩ := simulates_literal push rfl
    exact reach
  obtain ⟨-, stepFirst, stepLast, hfirst, hlast, incremented, assigned, -⟩ :=
    increment_adds_step_first (l := textLoop) (by simp [textLoop, Token.balanced, Token.closes])
      yields rfl rfl
  cases hfirst
  cases hlast
  have split : CodeAt textCode 0 textCode := List.prefix_refl _
  obtain ⟨first, second⟩ := codeAt_append.mp split
  exact ⟨incremented first, assigned second⟩

/-- Where the sum of the increment stands, from the start of the loop's code. -/
def sumOffset (l : Loop) : Nat :=
  conditionOffset l + 2 + (lowering.value l.stop).length + 2 + (body l.body).length +
    (amountCode l.increment).length

/-- Control comes so many times from the condition to the sum of the increment and back. Each time the
step has some value at the sum, and the variable is what it was at the condition. -/
inductive Rounds (code : Code) (k : Context) (l : Loop) (position : Nat) :
    Store → List Value → Store → Prop where
  | nil (s : Store) : Rounds code k l position s [] s
  | cons {s t u z : Store} {step : Value} {steps : List Value}
      (comes : Reaches code (k.at (position + conditionOffset l) [] s)
        (k.at (position + sumOffset l) [step] t))
      (same : lookup l.var t.vars = lookup l.var s.vars)
      (back : resume code 2 (k.at (position + sumOffset l) [step] t) =
        k.at (position + conditionOffset l) [] u)
      (rest : Rounds code k l position u steps z) : Rounds code k l position s (step :: steps) z

theorem resume_jump {destination : Nat} (h : code[position]? = some (.jump l.conditionLabel))
    (hl : labelPosition? code l.conditionLabel = some destination) :
    resume code 1 (k.at position pushed s) = k.at destination pushed s := by
  simp [resume, Context.at, Machine.step, h, State.execute, State.jump, hl, State.goTo]

theorem Context.at_injective (h : k.at position pushed s = k.at position pushed t) : s = t := by
  cases s
  cases t
  simp only [Context.at, Outcome.running.injEq, State.mk.injEq, List.cons.injEq, Frame.mk.injEq] at h
  simp [h]

/-- One round puts its step in front of the variable, and the next label to come to is the
condition's. -/
theorem resume_round (hc : CodeAt code position (loop l))
    (again : labelPosition? code l.conditionLabel = some (position + conditionOffset l))
    (hv : lookup l.var t.vars = some current) :
    resume code 2 (k.at (position + sumOffset l) [step] t) =
      k.at (position + conditionOffset l) [] (t.set l.var (step.sum current)) := by
  simp only [loop_eq, increment_eq, List.cons_append, List.append_assoc, List.nil_append,
    codeAt_cons, codeAt_append, codeAt_nil, and_true] at hc
  obtain ⟨-, -, -, -, -, -, -, -, -, -, hadd, hjump, -⟩ := hc
  have place : position + sumOffset l = position + 1 + (lowering.value l.start).length + 1 + 1 + 1 +
      (lowering.value l.stop).length + 1 + 1 + (body l.body).length +
        (amountCode l.increment).length := by
    simp only [sumOffset, conditionOffset]
    omega
  rw [← place] at hadd hjump
  rw [show 2 = 1 + 1 from rfl, resume_add, resume_sum hadd hv]
  exact resume_jump hjump again

/-- After so many rounds the steps stand in front of the first value of the variable, the last one
foremost. Where all of them are numbers, this is the sum from left to right that the listing says. -/
theorem value_after_rounds {z : Store} {steps : List Value} (hc : CodeAt code position (loop l))
    (again : labelPosition? code l.conditionLabel = some (position + conditionOffset l))
    (h : Rounds code k l position s steps z) (hv : lookup l.var s.vars = some current) :
    lookup l.var z.vars = some (steps.foldl (fun value step => step.sum value) current) ∧
      (current.isNumber → (∀ step ∈ steps, step.isNumber) →
        lookup l.var z.vars = some (steps.foldl Value.sum current)) := by
  induction h generalizing current with
  | nil s => exact ⟨hv, fun _ _ => hv⟩
  | @cons s t u z step steps comes same back rest ih =>
    have advanced : u = t.set l.var (step.sum current) :=
      Context.at_injective (back.symm.trans (resume_round hc again (same.trans hv)))
    have next : lookup l.var u.vars = some (step.sum current) := by
      rw [advanced, Store.set, lookup_assign, if_pos rfl]
    refine ⟨(ih next).1, ?_⟩
    intro number numbers
    rw [List.forall_mem_cons] at numbers
    have swapped := (Value.sum_comm_iff step current).mpr (.inl ⟨numbers.1, number⟩)
    rw [swapped] at next
    exact (ih next).2 (Value.isNumber_sum number numbers.1) numbers.2

end Semantics

end StackCompiler
