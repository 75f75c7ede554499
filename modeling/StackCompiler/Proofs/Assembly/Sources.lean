import StackCompiler.Proofs.Assembly.Layout
import StackCompiler.Proofs.Construction.Invariant

/-!
Where the instructions of a program come from. Each of them is one of some node of the tree, so that
what holds of the instructions of all nodes holds of the whole code.
-/

namespace StackCompiler

namespace Node

open Assembly in
/-- Instructions of the node itself, in any order and with no regard to how often they come. -/
def instructions : Node → Code
  | function f =>
    .comment f.heading :: .label f.label :: .comment f.ending :: f.params.map store
  | assignment a => [store a.target]
  | ret _ => [.out]
  | switchExit e => [.jump e.targetLabel]
  | loopExit e => [.jump e.targetLabel]
  | loop l =>
    [.comment s!"for {l.var}", store l.var, .label l.conditionLabel, .mov .push (.slot l.var),
      stackBinary .lessEq, .jumpFalse l.exitLabel .pop, .mov .push (.literal "1"),
      .binary .add (.slot l.var) .pop (.slot l.var), .jump l.conditionLabel, .label l.exitLabel]
  | conditional c =>
    [.comment "if", .jumpFalse c.elseLabel .pop, .jump c.exitLabel, .label c.elseLabel,
      .label c.exitLabel]
  | switch s => [.comment "switch", .jump s.exitLabel, .label s.exitLabel]
  | switchCase c =>
    [stackBinary .eq, stackBinary .or, .jumpFalse c.skipLabel .pop, .label c.skipLabel]
  | expression e => e.order.filterMap fun
    | .operand (.constant k) => some (lowering.constant k.literal)
    | .operand _ => none
    | .apply op => some (operatorInstruction op)
  | identifier i => [lowering.identifier i.name]
  | call c =>
    [.comment s!"call {c.name} with {c.args.length} args", callInstruction c.name c.args.length]
  | program _ | block _ => []

open Assembly

variable {Q : Instruction → Prop}

/-- The test of a case repeats the scrutinee, which is no child of the case. -/
theorem forall_mem_code {n : Node} (h : n.Every fun m => ∀ i ∈ m.instructions, Q i)
    (scrutinee : Option Expression) (exit : Label)
    (hcase : n.kind = .switchCase → Q (.jump exit) ∧ ∀ i ∈ lowering.value scrutinee, Q i) :
    ∀ i ∈ n.code scrutinee exit, Q i := by
  induction n using Node.induction generalizing scrutinee exit with
  | step n ih =>
    have inner {c : Node} (hc : c ∈ n.children) (hk : c.kind ≠ .switchCase) :
        ∀ i ∈ c.code none exit, Q i :=
      ih c hc (h.child hc) none exit fun k => absurd k hk
    have inBody {b : Option Block} (hb : ∀ b' ∈ b.toList, block b' ∈ n.children) :
        ∀ i ∈ body b, Q i := by
      rw [body_eq, List.forall_mem_flatMap]
      exact fun b' hb' => inner (hb b' hb') (by simp [kind])
    have inValue {e : Option Expression} (he : ∀ e' ∈ e.toList, expression e' ∈ n.children) :
        ∀ i ∈ lowering.value e, Q i := by
      rw [value_eq, List.forall_mem_flatMap]
      exact fun e' he' => inner (he e' he') (by simp [kind])
    have own := h.self
    cases n with
    | program p =>
      rw [code, ofProgram, List.forall_mem_flatMap]
      exact fun f hf => inner (List.mem_map.mpr ⟨f, hf, rfl⟩) (by simp [kind])
    | function f =>
      obtain ⟨heading, label, ending, stores⟩ := by simpa [instructions] using own
      have inside := inBody (b := f.body) fun b hb => List.mem_map.mpr ⟨b, hb, rfl⟩
      simp only [code, Assembly.function, List.forall_mem_append, List.forall_mem_cons]
      refine ⟨⟨⟨⟨heading, label, by simp⟩, fun i hi => ?_⟩, inside⟩, ending, by simp⟩
      obtain ⟨x, hx, rfl⟩ := List.mem_map.mp hi
      exact stores x (List.mem_reverse.mp hx)
    | block b =>
      rw [code, block_eq, List.forall_mem_flatMap]
      intro s hs
      rw [statement_eq none exit]
      refine inner (List.mem_map.mpr ⟨s, hs, rfl⟩) ?_
      cases s <;> simp [Statement.node, kind]
    | assignment a =>
      have inside := inValue (e := a.value) fun e he => List.mem_map.mpr ⟨e, he, rfl⟩
      exact List.forall_mem_append.mpr ⟨inside, own⟩
    | ret r =>
      have inside := inValue (e := r.value) fun e he => List.mem_map.mpr ⟨e, he, rfl⟩
      exact List.forall_mem_append.mpr ⟨inside, own⟩
    | switchExit e | loopExit e => exact own
    | loop l =>
      have start := inValue (e := l.start) fun e he => by
        simp [children, Option.mem_toList.mp he]
      have stop := inValue (e := l.stop) fun e he => by
        simp [children, Option.mem_toList.mp he]
      have step := inValue (e := l.increment) fun e he => by
        simp [children, Option.mem_toList.mp he]
      have inside := inBody (b := l.body) fun b hb => by
        simp [children, Option.mem_toList.mp hb]
      simp only [instructions, List.forall_mem_cons] at own
      obtain ⟨comment, store, condition, load, test, leave, one, add, back, exit, -⟩ := own
      have amount : ∀ i ∈ amountCode l.increment, Q i := by
        cases hi : l.increment with
        | none => simpa [amountCode] using one
        | some e => rwa [hi] at step
      simp only [code, loop_eq, increment_eq, List.forall_mem_append, List.forall_mem_cons,
        List.not_mem_nil, false_implies, implies_true, and_true]
      exact ⟨⟨⟨⟨⟨⟨⟨comment, start⟩, store, condition, load⟩, stop⟩, test, leave⟩, inside⟩,
        amount, add⟩, back, exit⟩
    | conditional c =>
      have condition := inValue (e := c.condition) fun e he => by
        simp [children, Option.mem_toList.mp he]
      have first := inBody (b := c.thenBlock) fun b hb => by
        simp [children, Option.mem_toList.mp hb]
      have second := inBody (b := c.elseBlock) fun b hb => by
        simp [children, Option.mem_toList.mp hb]
      simp only [instructions, List.forall_mem_cons] at own
      obtain ⟨comment, test, leave, other, exit, -⟩ := own
      simp only [code, conditional_eq, List.forall_mem_append, List.forall_mem_cons,
        List.not_mem_nil, false_implies, implies_true, and_true]
      exact ⟨⟨⟨⟨⟨⟨comment, condition⟩, test⟩, first⟩, leave, other⟩, second⟩, exit⟩
    | switch s =>
      have scrutinee := inValue (e := s.scrutinee) fun e he => by
        simp [children, Option.mem_toList.mp he]
      have inside := inBody (b := s.fallback) fun b hb => by
        simp [children, Option.mem_toList.mp hb]
      simp only [instructions, List.forall_mem_cons] at own
      obtain ⟨comment, leave, exit, -⟩ := own
      have cases : ∀ c ∈ s.cases, ∀ i ∈ Assembly.switchCase s.scrutinee s.exitLabel c, Q i := by
        intro c hc
        have child : switchCase c ∈ (switch s).children := by simp [children, hc]
        exact ih _ child (h.child child) s.scrutinee s.exitLabel fun _ => ⟨leave, scrutinee⟩
      simp only [code, switch_eq, List.forall_mem_append, List.forall_mem_cons,
        List.forall_mem_flatMap, List.not_mem_nil, false_implies, implies_true, and_true]
      exact ⟨⟨⟨comment, cases⟩, inside⟩, exit⟩
    | switchCase c =>
      obtain ⟨leave, scrutinee⟩ := hcase rfl
      have inside := inBody (b := c.body) fun b hb => by
        simp [children, Option.mem_toList.mp hb]
      have values : ∀ e ∈ c.values, ∀ i ∈ lowering.expression e, Q i := fun e he =>
        inner (c := expression e) (by simp [children, he]) (by simp [kind])
      simp only [instructions, List.forall_mem_cons] at own
      obtain ⟨eq, or, test, skip, -⟩ := own
      have ors : ∀ i ∈ List.replicate (c.values.length - 1) (stackBinary .or), Q i :=
        fun i hi => List.eq_of_mem_replicate hi ▸ or
      simp only [code, switchCase_eq, caseTest, List.forall_mem_append, List.forall_mem_cons,
        List.forall_mem_flatMap, List.not_mem_nil, false_implies, implies_true, and_true]
      exact ⟨⟨⟨⟨fun e he => ⟨⟨scrutinee, values e he⟩, eq⟩, ors⟩, test⟩, inside⟩, leave, skip⟩
    | expression e =>
      rw [code, expression_eq, List.forall_mem_flatMap]
      intro step hs
      simp only [instructions, List.forall_mem_filterMap] at own
      cases step with
      | apply op => simpa [stepCode] using own _ hs
      | operand l =>
        have token := operand_mem_orderFrom.mp hs
        have below {c : Node} (hc : l.node? = some c) : c ∈ (expression e).children :=
          List.mem_filterMap.mpr ⟨_, token, hc⟩
        cases l with
        | constant k => simpa [stepCode, Lowering.leaf] using own _ hs
        | identifier i =>
          simpa [instructions, stepCode, Lowering.leaf] using (h.child (below rfl)).self
        | call c => exact inner (below rfl) (by simp [kind])
    | identifier i => simp [code]
    | call c =>
      have arguments : ∀ e ∈ c.args, ∀ i ∈ lowering.expression e, Q i := fun e he =>
        inner (c := expression e) (by simp [children, he]) (by simp [kind])
      simp only [instructions, List.forall_mem_cons] at own
      obtain ⟨comment, leave, -⟩ := own
      simp only [code, callCode_eq, List.forall_mem_append, List.forall_mem_cons,
        List.forall_mem_flatMap, List.not_mem_nil, false_implies, implies_true, and_true]
      exact ⟨⟨comment, arguments⟩, leave⟩

end Node

namespace Assembly

theorem forall_mem_ofProgram {Q : Instruction → Prop} {p : Program}
    (h : (Node.program p).Every fun m => ∀ i ∈ m.instructions, Q i) : ∀ i ∈ ofProgram p, Q i :=
  Node.forall_mem_code h none (.forFunction "") (by simp [Node.kind])

end Assembly

end StackCompiler
