import StackCompiler.Proofs.Script.Evaluated

/-!
Operators that the machine does not have. Their mark is in the code of a program exactly if one of
them is in an expression that has code, and all expressions have code but those that a switch
compares with nothing.
-/

namespace StackCompiler

/-- Power, or a symbol that is not known, is among the tokens. -/
def Expression.HasForeign (e : Expression) : Prop :=
  ∃ op, .operator op ∈ e.tokens ∧ (op = .power ∨ op.isOther = true)

namespace Node

/-- An expression that is evaluated has an operator without an instruction. -/
def Foreign (n : Node) : Prop := ∃ e, n.Evaluates (expression e) ∧ e.HasForeign

theorem foreign_iff {n : Node} :
    n.Foreign ↔ (∃ e, n = expression e ∧ e.HasForeign) ∨ ∃ c ∈ n.evaluated, c.Foreign := by
  constructor
  · rintro ⟨e, he, foreign⟩
    cases he with
    | self => exact .inl ⟨e, rfl, foreign⟩
    | inner hc hm => exact .inr ⟨_, hc, e, hm, foreign⟩
  · rintro (⟨e, rfl, foreign⟩ | ⟨c, hc, e, he, foreign⟩)
    · exact ⟨e, .self _, foreign⟩
    · exact ⟨e, .inner hc he, foreign⟩

/-- Without cases the scrutinee does not count. -/
theorem foreign_switch {s : Switch} : (switch s).Foreign ↔
    (s.cases ≠ [] ∧ ∃ e ∈ s.scrutinee, (expression e).Foreign) ∨
      (∃ c ∈ s.cases, (switchCase c).Foreign) ∨ ∃ b ∈ s.fallback, (block b).Foreign := by
  rw [foreign_iff]
  by_cases empty : s.cases = []
  · simp [evaluated, empty]
  · simp [evaluated, empty, or_and_right, exists_or]

theorem not_foreign_identifier (i : Identifier) : ¬ (identifier i).Foreign := by
  rw [foreign_iff]
  rintro (⟨e, he, -⟩ | ⟨c, hc, -⟩)
  · cases he
  · cases hc

/-- Of the operands only calls count. -/
theorem foreign_expression {e : Expression} : (expression e).Foreign ↔
    e.HasForeign ∨ ∃ c, .leaf (.call c) ∈ e.tokens ∧ (call c).Foreign := by
  rw [foreign_iff]
  refine or_congr (by simp) ⟨?_, ?_⟩
  · rintro ⟨c, hc, foreign⟩
    obtain ⟨token, ht, hn⟩ := List.mem_filterMap.mp hc
    obtain ⟨l, rfl⟩ := Token.eq_leaf_of_node? hn
    cases l with
    | call k =>
      cases hn
      exact ⟨k, ht, foreign⟩
    | identifier i =>
      cases hn
      exact (not_foreign_identifier i foreign).elim
    | constant k => cases hn
  · rintro ⟨c, hc, foreign⟩
    exact ⟨call c, List.mem_filterMap.mpr ⟨_, hc, rfl⟩, foreign⟩

end Node

namespace Assembly

/-- Some instruction is the mark of an operator that has none. -/
def Marked (code : Code) : Prop := ∃ i ∈ code, i.isUnknown = true

theorem hasUnknown_iff {code : Code} : code.hasUnknown = true ↔ Marked code := List.any_eq_true

section

variable {i : Instruction} {part part' : List Instruction}

@[simp] theorem marked_nil : Marked [] ↔ False := by simp [Marked]

@[simp] theorem marked_cons : Marked (i :: part) ↔ i.isUnknown = true ∨ Marked part := by
  simp [Marked]

@[simp] theorem marked_append : Marked (part ++ part') ↔ Marked part ∨ Marked part' := by
  simp [Marked, or_and_right, exists_or]

@[simp] theorem marked_flatMap {α : Type} {as : List α} {f : α → Code} :
    Marked (as.flatMap f) ↔ ∃ a ∈ as, Marked (f a) := by
  simp only [Marked, List.mem_flatMap]
  exact ⟨fun ⟨i, ⟨a, ha, hi⟩, mark⟩ => ⟨a, ha, i, hi, mark⟩,
    fun ⟨a, ha, i, hi, mark⟩ => ⟨i, ⟨a, ha, hi⟩, mark⟩⟩

@[simp] theorem marked_stores {names : List String} : Marked (names.map store).reverse ↔ False := by
  simp [Marked, store, Instruction.isUnknown]

@[simp] theorem marked_replicate {count : Nat} :
    Marked (List.replicate count i) ↔ count ≠ 0 ∧ i.isUnknown = true := by
  simp [Marked]

end

theorem marked_caseTest {scrutinee : Option Expression} {values : List Expression} :
    Marked (caseTest scrutinee values) ↔
      ∃ v ∈ values, Marked (lowering.value scrutinee) ∨ Marked (lowering.expression v) := by
  simp [caseTest, stackBinary, Instruction.isUnknown]

theorem marked_amountCode {step : Option Expression} :
    Marked (amountCode step) ↔ Marked (lowering.value step) := by
  cases step <;> simp [amountCode, Lowering.value, Instruction.isUnknown]

/-- A call itself is never marked. -/
theorem marked_callCode {c : Call} :
    Marked (lowering.callCode c) ↔ ∃ e ∈ c.args, Marked (lowering.expression e) := by
  rw [callCode_eq, callInstruction]
  split <;> simp [Instruction.isUnknown]

/-- Unary operators have instructions, and so have all binary ones that are known, but for power. -/
theorem isUnknown_operatorInstruction (op : Operator) :
    (operatorInstruction op).isUnknown = true ↔ op = .power ∨ op.isOther = true := by
  cases op with
  | other symbol => exact iff_of_true rfl (.inr rfl)
  | _ => decide

end Assembly

/-- The calls among the tokens bring their own marks; the other operands have none. -/
theorem Assembly.marked_expression {e : Expression} : Marked (lowering.expression e) ↔
    e.HasForeign ∨ ∃ c, .leaf (.call c) ∈ e.tokens ∧ Marked (lowering.callCode c) := by
  rw [expression_eq, marked_flatMap]
  simp only [Expression.mem_order]
  constructor
  · rintro ⟨step, hs, mark⟩
    cases step with
    | apply op =>
      exact .inl ⟨op, hs, (isUnknown_operatorInstruction op).mp (by simpa [stepCode] using mark)⟩
    | operand l =>
      cases l with
      | call c => exact .inr ⟨c, hs, mark⟩
      | identifier i | constant k =>
        simp [stepCode, Lowering.leaf, lowering, Instruction.isUnknown] at mark
  · rintro (⟨op, hop, foreign⟩ | ⟨c, hc, mark⟩)
    · have marked := (isUnknown_operatorInstruction op).mpr foreign
      exact ⟨.apply op, hop, by simpa [stepCode] using marked⟩
    · exact ⟨.operand (.call c), hc, mark⟩

namespace Node

open Assembly

/-- The code has a mark for each operator without an instruction that is evaluated. That of a case
evaluates the scrutinee too, since there is a value to compare it with. -/
theorem marked_code {n : Node} (h : n.Every HasValues) (scrutinee : Option Expression)
    (exit : Label) : Marked (n.code scrutinee exit) ↔
      n.Foreign ∨ n.kind = .switchCase ∧ Marked (lowering.value scrutinee) := by
  induction n using Node.induction generalizing scrutinee exit with
  | step n ih =>
    have inner {c : Node} (hc : c ∈ n.children) (hk : c.kind ≠ .switchCase) :
        Marked (c.code none exit) ↔ c.Foreign := by
      simpa [hk] using ih c hc (h.child hc) none exit
    have inBody {b : Option Block} (hb : ∀ b' ∈ b, block b' ∈ n.children) :
        Marked (body b) ↔ ∃ b' ∈ b, (block b').Foreign := by
      rw [body_eq, marked_flatMap]
      simp only [Option.mem_toList]
      exact exists_congr fun b' => and_congr_right fun hb' => inner (hb b' hb') (by simp [kind])
    have inValue {e : Option Expression} (he : ∀ e' ∈ e, expression e' ∈ n.children) :
        Marked (lowering.value e) ↔ ∃ e' ∈ e, (expression e').Foreign := by
      rw [value_eq, marked_flatMap]
      simp only [Option.mem_toList]
      exact exists_congr fun e' => and_congr_right fun he' => inner (he e' he') (by simp [kind])
    rw [foreign_iff]
    cases n with
    | program p =>
      have functions : ∀ f ∈ p.functions, (Marked (Assembly.function f) ↔ (function f).Foreign) :=
        fun f hf => inner (List.mem_map_of_mem hf) (by simp [kind])
      simpa [code, ofProgram, kind, evaluated, children] using
        exists_congr fun f => and_congr_right (functions f)
    | function f =>
      have inside := inBody (b := f.body) fun b hb => by simp [children, Option.mem_def.mp hb]
      simpa [code, Assembly.function, kind, evaluated, children, Instruction.isUnknown] using inside
    | block b =>
      have statements : ∀ s ∈ b.statements, (Marked (statement s) ↔ s.node.Foreign) := by
        intro s hs
        rw [statement_eq none exit]
        exact inner (List.mem_map_of_mem hs) (by cases s <;> simp [Statement.node, kind])
      simpa [code, block_eq, kind, evaluated, children] using
        exists_congr fun s => and_congr_right (statements s)
    | assignment a =>
      have value := inValue (e := a.value) fun e he => by simp [children, Option.mem_def.mp he]
      simpa [code, statement, store, kind, evaluated, children, Instruction.isUnknown] using value
    | ret r =>
      have value := inValue (e := r.value) fun e he => by simp [children, Option.mem_def.mp he]
      simpa [code, statement, kind, evaluated, children, Instruction.isUnknown] using value
    | switchExit e | loopExit e =>
      simp [code, statement, kind, evaluated, children, Instruction.isUnknown]
    | loop l =>
      have start := inValue (e := l.start) fun e he => by simp [children, Option.mem_def.mp he]
      have stop := inValue (e := l.stop) fun e he => by simp [children, Option.mem_def.mp he]
      have step := inValue (e := l.increment) fun e he => by simp [children, Option.mem_def.mp he]
      have inside := inBody (b := l.body) fun b hb => by simp [children, Option.mem_def.mp hb]
      simp only [code, loop_eq, increment_eq, store, stackBinary, kind, evaluated, children,
        Instruction.isUnknown, marked_append, marked_cons, marked_nil, marked_amountCode, start,
        stop, step, inside]
      simp [or_and_right, exists_or, or_assoc]
      exact or_congr_right (or_congr_right or_comm)
    | conditional c =>
      have condition := inValue (e := c.condition) fun e he => by
        simp [children, Option.mem_def.mp he]
      have first := inBody (b := c.thenBlock) fun b hb => by simp [children, Option.mem_def.mp hb]
      have second := inBody (b := c.elseBlock) fun b hb => by simp [children, Option.mem_def.mp hb]
      simp [code, conditional_eq, kind, evaluated, children, Instruction.isUnknown, or_and_right,
        exists_or, condition, first, second]
    | switch s =>
      rw [← foreign_iff, foreign_switch]
      have scrutinised := inValue (e := s.scrutinee) fun e he => by
        simp [children, Option.mem_def.mp he]
      have other := inBody (b := s.fallback) fun b hb => by simp [children, Option.mem_def.mp hb]
      have compared : ∀ c ∈ s.cases, (Marked (Assembly.switchCase s.scrutinee s.exitLabel c) ↔
          (switchCase c).Foreign ∨ Marked (lowering.value s.scrutinee)) := by
        intro c hc
        have hm : switchCase c ∈ (switch s).children := by simp [children, hc]
        simpa [kind, code] using ih _ hm (h.child hm) s.scrutinee s.exitLabel
      have all := exists_congr fun c => and_congr_right (compared c)
      simp only [code, switch_eq, kind, Instruction.isUnknown, marked_append, marked_cons,
        marked_nil, marked_flatMap, all, other, scrutinised]
      by_cases empty : s.cases = []
      · simp [empty]
      · simp [empty, List.exists_mem_of_ne_nil _ empty, and_or_left, exists_or]
        exact or_assoc.trans or_left_comm
    | switchCase c =>
      have values : ∀ v ∈ c.values, (Marked (lowering.expression v) ↔ (expression v).Foreign) :=
        fun v hv => inner (List.mem_append_left _ (List.mem_map_of_mem hv)) (by simp [kind])
      have inside := inBody (b := c.body) fun b hb => by simp [children, Option.mem_def.mp hb]
      have nonempty : ∃ v, v ∈ c.values := List.exists_mem_of_ne_nil _ h.self
      have all := exists_congr fun v => and_congr_right (values v)
      simp only [code, switchCase_eq, kind, evaluated, children, Instruction.isUnknown,
        marked_append, marked_cons, marked_nil, marked_caseTest, inside, and_or_left, exists_or,
        all, exists_and_right, nonempty]
      simp [or_and_right, exists_or]
      exact or_assoc.trans or_comm
    | expression e =>
      rw [← foreign_iff, foreign_expression]
      have calls : ∀ c, .leaf (.call c) ∈ e.tokens →
          (Marked (lowering.callCode c) ↔ (call c).Foreign) :=
        fun c hc => inner (List.mem_filterMap.mpr ⟨_, hc, rfl⟩) (by simp [kind])
      have all := exists_congr fun c => and_congr_right (calls c)
      simp [code, marked_expression, all, kind]
    | identifier i =>
      simp [code, kind, evaluated, children]
    | call c =>
      have arguments : ∀ e ∈ c.args, (Marked (lowering.expression e) ↔ (expression e).Foreign) :=
        fun e he => inner (List.mem_map_of_mem he) (by simp [kind])
      simpa [code, marked_callCode, kind, evaluated, children] using
        exists_congr fun e => and_congr_right (arguments e)

end Node

namespace Script

open Assembly Node

/-- No operator without an instruction that is evaluated is lost, whatever a script writes and
however deep: its mark is in the code, and no other mark is. -/
theorem replay_hasUnknown {source : String} {built : Built} (h : replay source = .ok built) :
    (ofProgram built.program).hasUnknown = true ↔
      ∃ e, (Node.program built.program).Evaluates (.expression e) ∧ e.HasForeign := by
  rw [hasUnknown_iff]
  simpa [Node.code, Node.kind, Node.Foreign] using
    Node.marked_code (replay_every (kept_hasValues _) h) none (Label.forFunction "")

/-- A power, returned. -/
def powerSource : String :=
  "begin-program\n" ++ "begin-function\n" ++ "name main\n" ++ "begin-block\n" ++
  "begin-return\n" ++ "expr 2 ^ 3\n" ++ "attach\n" ++ "attach\n" ++ "attach\n" ++ "attach\n"

def powerProgram : Program where
  id := 0
  functions := [
    { id := 1
      name := "main"
      body := some ⟨2, [.ret ⟨3, some ⟨4, [.leaf (.constant ⟨5, "2"⟩), .operator .power,
        .leaf (.constant ⟨6, "3"⟩)]⟩⟩]⟩ }]

set_option maxRecDepth 10000 in
theorem replay_power : replay powerSource = .ok ⟨powerProgram, []⟩ := by
  unfold replay lines powerSource
  simp only [String.toList_append]
  rfl

theorem replay_hasUnknown_power : replay powerSource = .ok ⟨powerProgram, []⟩ ∧
    ∃ e, (Node.program powerProgram).Evaluates (.expression e) ∧ e.HasForeign := by
  have mark : (ofProgram powerProgram).hasUnknown = true := by decide
  exact ⟨replay_power, (replay_hasUnknown replay_power).mp mark⟩

/-- A power that a switch compares with nothing. -/
def idleSource : String :=
  "begin-program\n" ++ "begin-function\n" ++ "name main\n" ++ "begin-block\n" ++
  "begin-switch\n" ++ "expr 2 ^ 3\n" ++ "attach\n" ++ "case\n" ++ "begin-switch-block\n" ++
  "end-case\n" ++ "attach\n" ++ "begin-return\n" ++ "expr 1\n" ++ "attach\n" ++ "attach\n" ++
  "attach\n" ++ "attach\n"

def idlePower : Expression where
  id := 4
  tokens := [.leaf (.constant ⟨5, "2"⟩), .operator .power, .leaf (.constant ⟨6, "3"⟩)]

def idleProgram : Program where
  id := 0
  functions := [
    { id := 1
      name := "main"
      body := some ⟨2, [
        .switch ⟨3, some idlePower, [], some ⟨7, []⟩, true⟩,
        .ret ⟨8, some ⟨9, [.leaf (.constant ⟨10, "1"⟩)]⟩⟩]⟩ }]

set_option maxRecDepth 10000 in
theorem replay_idle : replay idleSource = .ok ⟨idleProgram, []⟩ := by
  unfold replay lines idleSource
  simp only [String.toList_append]
  rfl

/-- What a switch without cases never evaluates is in the tree and not in the code. -/
theorem not_hasUnknown_iff_subtree : ¬ ∀ {source : String} {built : Built},
    replay source = .ok built → ((ofProgram built.program).hasUnknown = true ↔
      ∃ e, .expression e ∈ (Node.program built.program).subtree ∧ e.HasForeign) := by
  intro all
  have unmarked : (ofProgram idleProgram).hasUnknown = false := by decide
  have power : idlePower.HasForeign := ⟨.power, .tail _ (.head _), .inl rfl⟩
  have inside : .expression idlePower ∈ (Node.program idleProgram).subtree :=
    child_mem_subtree
      (child_mem_subtree
        (child_mem_subtree
          (child_mem_subtree (self_mem_subtree _) (.head _)) (.head _)) (.head _)) (.head _)
  have marked := (all replay_idle).mpr ⟨_, inside, power⟩
  rw [unmarked] at marked
  cases marked

end Script

end StackCompiler
