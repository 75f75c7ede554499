import StackCompiler.Proofs.Assembly.Ledger
import StackCompiler.Proofs.Assembly.Linking
import StackCompiler.Proofs.Script.Built
import StackCompiler.Proofs.Tree.Infix

/-!
How much a function has on the stack where an instruction stands. Between statements it is nothing,
an expression adds one value, and no instruction takes more than there is.
-/

namespace StackCompiler

/-- A node whose values are all there, and whose calls pass what the functions take. -/
def Node.Regular (p : Program) : Node → Prop
  | assignment a => a.value.isSome
  | ret r => r.value.isSome
  | conditional c => c.condition.isSome
  | loop l => l.start.isSome ∧ l.stop.isSome
  | switch s => s.scrutinee.isSome
  | expression e => (∃ t enclosed, Infix.Renders enclosed t e.tokens) ∧
      ∀ c, .leaf (.call c) ∈ e.tokens → c.builtin? ≠ some .print
  | call c => c.builtin? = none →
      ∀ f, p.function? c.name = some f → f.params.length = c.args.length
  | _ => True

namespace Assembly

namespace Entry

def after (e : Entry) (height : Nat) : Nat := height - e.takes + e.gives

/-- Values that the machine leaves there and nothing takes. -/
def leaves (e : Entry) : Nat := e.instruction.gives - e.gives

/-- The entry says what the machine does; only a value that comes from outside may be left out. -/
def Fair (e : Entry) : Prop :=
  match e.instruction with
  | .call _ => e.gives ≤ 1
  | .read count => e.takes = count ∧ e.gives ≤ 1
  | .label l => e.takes = e.gives ∧ (l.IsLocal → e.takes = 0)
  | i => e.takes = i.takes ∧ e.gives = i.gives

/-- At such a height the entry is in order. -/
structure Ok (p : Program) (e : Entry) (height : Nat) : Prop where
  enough : e.takes ≤ height
  control : e.instruction.isControl → height = e.takes
  fair : e.Fair
  inside : ∀ {l}, e.instruction.destination? = some l → l.IsLocal
  callee : ∀ {l}, e.instruction = .call l → ∃ name, l = .forFunction name ∧
    ∀ f, p.function? name = some f → f.params.length = e.takes

/-- What an entry says about the instruction and what the instruction does differ only by the values
that are left there. -/
theorem Fair.balance {e : Entry} (h : e.Fair) (hcall : ∀ l, e.instruction ≠ .call l) :
    e.instruction.takes ≤ e.takes ∧
      e.takes + e.instruction.gives = e.instruction.takes + e.gives + e.leaves := by
  obtain ⟨i, takes, gives⟩ := e
  unfold Fair at h
  unfold leaves
  cases i with
  | call l => exact absurd rfl (hcall l)
  | read count =>
    simp only [Instruction.takes, Instruction.gives] at h ⊢
    omega
  | label l =>
    simp only [Instruction.takes, Instruction.gives] at h ⊢
    omega
  | _ =>
    simp only at h ⊢
    omega

/-- Where control jumps to nothing is left on the stack. -/
theorem Ok.after_eq_zero {p : Program} {e : Entry} {height : Nat} {l : Label} (h : e.Ok p height)
    (hl : e.instruction.destination? = some l) : e.after height = 0 := by
  have gives : e.gives = 0 := by
    have fair := h.fair
    unfold Fair at fair
    cases hi : e.instruction with
    | jump | jumpFalse =>
      rw [hi] at fair
      exact fair.2
    | _ =>
      rw [hi] at hl
      cases hl
  rw [after, h.control (Instruction.isControl_of_destination? hl), gives, Nat.sub_self]

end Entry

variable {p : Program}

/-- The part goes from one height to the other, and every entry on the way is in order. -/
def Level (p : Program) : Nat → List Entry → Nat → Prop
  | b, [], e => b = e
  | b, x :: rest, e => x.Ok p b ∧ Level p (x.after b) rest e

@[simp] theorem level_nil {b e : Nat} : Level p b [] e ↔ b = e := Iff.rfl

@[simp] theorem level_cons {b e : Nat} {x : Entry} {part : List Entry} :
    Level p b (x :: part) e ↔ x.Ok p b ∧ Level p (x.after b) part e := Iff.rfl

theorem level_append {b e : Nat} {part part' : List Entry} :
    Level p b (part ++ part') e ↔ ∃ m, Level p b part m ∧ Level p m part' e := by
  induction part generalizing b with
  | nil => simp
  | cons x part ih => simp [ih, and_assoc]

theorem Level.append {b m e : Nat} {part part' : List Entry} (h : Level p b part m)
    (h' : Level p m part' e) : Level p b (part ++ part') e := level_append.mpr ⟨m, h, h'⟩

section

variable {i : Instruction} {l : Label} {b e : Nat}

/-- Most instructions take and give what the entry says of its own accord. -/
theorem ok_of (henough : i.takes ≤ b) (hcontrol : i.isControl → b = i.takes)
    (hcall : ∀ l, i ≠ .call l) (hlabel : ∀ l, i = .label l → i.takes = i.gives ∧ i.takes = 0)
    (hinside : ∀ l, i.destination? = some l → l.IsLocal) : (Entry.of i).Ok p b where
  enough := henough
  control := hcontrol
  fair := by
    cases i with
    | call l => exact absurd rfl (hcall l)
    | read count => exact ⟨rfl, Nat.le_refl _⟩
    | label l => exact ⟨(hlabel l rfl).1, fun _ => (hlabel l rfl).2⟩
    | _ => exact ⟨rfl, rfl⟩
  inside := hinside _
  callee h := absurd h (hcall _)

/-- An instruction that neither jumps nor calls is in order if there is enough on the stack. -/
theorem level_plain (henough : i.takes ≤ b) (hplain : i.isControl = false)
    (hcall : ∀ l, i ≠ .call l) (he : b - i.takes + i.gives = e) : Level p b [.of i] e := by
  refine ⟨ok_of henough (by simp [hplain]) hcall ?_ ?_, he⟩
  · rintro l rfl
    cases hplain
  · intro l hl
    rw [Instruction.isControl_of_destination? hl] at hplain
    cases hplain

theorem level_comment (text : String) : Level p b [.of (.comment text)] b :=
  level_plain (Nat.zero_le b) rfl (by simp) rfl

theorem level_label (l : Label) : Level p 0 [.of (.label l)] 0 :=
  ⟨ok_of (Nat.le_refl _) (fun _ => rfl) (by simp) (fun _ _ => ⟨rfl, rfl⟩) (by
    intro l hl
    cases hl), rfl⟩

theorem level_jump (h : l.IsLocal) : Level p 0 [.of (.jump l)] 0 :=
  ⟨ok_of (Nat.le_refl _) (fun _ => rfl) (by simp) (by simp) (by
    rintro _ ⟨⟩
    exact h), rfl⟩

theorem level_jumpFalse (h : l.IsLocal) : Level p 1 [.of (.jumpFalse l .pop)] 0 :=
  ⟨ok_of (Nat.le_refl _) (fun _ => rfl) (by simp) (by simp) (by
    rintro _ ⟨⟩
    exact h), rfl⟩

theorem level_leap (h : l.IsLocal) (l' : Label) :
    Level p 0 [.of (.jump l), .of (.label l')] 0 := (level_jump h).append (level_label l')

theorem level_out : Level p 1 [.of .out] 0 :=
  ⟨ok_of (Nat.le_refl _) (fun _ => rfl) (by simp) (by simp) (by
    intro l hl
    cases hl), rfl⟩

theorem level_store (name : String) : Level p (b + 1) [.of (store name)] b :=
  level_plain (Nat.le_add_left 1 b) rfl (by simp [store]) rfl

theorem level_push (source : Operand) (h : source.takes = 0) :
    Level p b [.of (.mov .push source)] (b + 1) := by
  refine level_plain ?_ rfl (by simp) ?_
  · simp [Instruction.takes, h]
  · simp [Instruction.takes, Instruction.gives, h, Target.gives]

theorem level_binary (op : BinaryOp) : Level p (b + 2) [.of (stackBinary op)] (b + 1) :=
  level_plain (Nat.le_add_left 2 b) rfl (by simp [stackBinary]) rfl

theorem level_unaryOperator {op : Operator} (h : op.isUnary = true) :
    Level p (b + 1) [.of (operatorInstruction op)] (b + 1) := by
  rw [operatorInstruction, if_pos h]
  cases UnaryOp.ofOperator? op with
  | some u => exact level_plain (Nat.le_add_left 1 b) rfl (by simp [stackUnary]) rfl
  | none => exact level_plain (Nat.le_add_left 1 b) rfl (by simp) rfl

theorem level_binaryOperator {op : Operator} (h : op.isUnary = false) :
    Level p (b + 2) [.of (operatorInstruction op)] (b + 1) := by
  rw [operatorInstruction, h]
  cases BinaryOp.ofOperator? op with
  | some o => exact level_binary o
  | none => exact level_plain (Nat.le_add_left 2 b) rfl (by simp) rfl

end

/-- The instruction of a call is in order, whether or not its value is given to something. -/
theorem ok_callInstruction {c : Call} (h : (Node.call c).Regular p) {gives b : Nat}
    (hb : c.args.length ≤ b) (hgives : gives ≤ 1) (hprint : c.builtin? = some .print → gives = 0) :
    (Entry.mk (callInstruction c.name c.args.length) c.args.length gives).Ok p b := by
  unfold callInstruction
  cases hc : Builtin.ofName? c.name with
  | none =>
    refine ⟨hb, by simp [Instruction.isControl], hgives, by simp [Instruction.destination?], ?_⟩
    rintro _ ⟨⟩
    exact ⟨c.name, rfl, h hc⟩
  | some builtin =>
    cases builtin with
    | print =>
      exact ⟨hb, by simp [Instruction.isControl], ⟨rfl, hprint hc⟩,
        by simp [Instruction.destination?], by simp⟩
    | read =>
      exact ⟨hb, by simp [Instruction.isControl], ⟨rfl, hgives⟩,
        by simp [Instruction.destination?], by simp⟩

/-- Both what is asked of the nodes and what every construction gives. -/
def Proper (p : Program) (n : Node) : Prop := n.Every fun m => m.Regular p ∧ m.HasValues

namespace Ledger

theorem level_expressions {es : List Expression} {b : Nat}
    (h : ∀ e ∈ es, ∀ {b}, Level p b (lowering.expression e) (b + 1)) :
    Level p b (es.flatMap lowering.expression) (b + es.length) := by
  induction es generalizing b with
  | nil => exact rfl
  | cons e es ih =>
    rw [List.flatMap_cons, List.length_cons, Nat.add_comm es.length, ← Nat.add_assoc]
    exact (h e List.mem_cons_self).append (ih fun e' he' => h e' (List.mem_cons_of_mem _ he'))

theorem level_lower {t : Infix Leaf} {b : Nat}
    (h : ∀ l ∈ t.leaves, ∀ {b}, Level p b (lowering.leaf l) (b + 1)) :
    Level p b (t.lower lowering) (b + 1) := by
  induction t generalizing b with
  | leaf l => exact h l (by simp [Infix.leaves])
  | unary op isUnary t ih => exact (ih h).append (level_unaryOperator isUnary)
  | binary op isBinary l r ihl ihr =>
    have left := ihl (b := b) fun l hl => h l (List.mem_append_left _ hl)
    have right := ihr (b := b + 1) fun l hl => h l (List.mem_append_right _ hl)
    exact (left.append right).append (level_binaryOperator isBinary)

/-- An expression adds its value to whatever there is, and so does a call within it. -/
theorem level_node (n : Node) (hn : Proper p n) :
    (∀ e, n = .expression e → ∀ {b}, Level p b (lowering.expression e) (b + 1)) ∧
      ∀ c, n = .call c → c.builtin? ≠ some .print →
        ∀ {b}, Level p b (lowering.callCode c) (b + 1) := by
  induction n using Node.induction with
  | step n ih =>
    constructor
    · rintro e rfl b
      obtain ⟨⟨t, enclosed, renders⟩, noPrint⟩ := hn.self.1
      rw [renders.lower_eq]
      refine level_lower fun l hl b => ?_
      have token := renders.mem_tokens hl
      cases l with
      | identifier i => exact level_push (.slot i.name) rfl
      | constant k => exact level_push (.literal (decodeConstant k.literal)) rfl
      | call c =>
        have child : Node.call c ∈ (Node.expression e).children :=
          List.mem_filterMap.mpr ⟨_, token, rfl⟩
        exact (ih _ child (hn.child child)).2 c rfl (noPrint c token)
    · rintro c rfl hprint b
      rw [Lowering.callCode_eq]
      have arguments : Level p b (c.args.flatMap lowering.expression) (b + c.args.length) := by
        refine level_expressions fun e he b => ?_
        have child : Node.expression e ∈ (Node.call c).children :=
          List.mem_map.mpr ⟨e, he, rfl⟩
        exact (ih _ child (hn.child child)).1 e rfl
      refine ((level_comment _).append arguments).append ⟨?_, by simp [Entry.after]⟩
      exact ok_callInstruction hn.self.1 (Nat.le_add_left c.args.length b) (Nat.le_refl 1)
        fun h => absurd h hprint

theorem level_expression {e : Expression} (he : Proper p (.expression e)) {b : Nat} :
    Level p b (lowering.expression e) (b + 1) := (level_node _ he).1 e rfl

theorem level_call {c : Call} (hc : Proper p (.call c)) (hprint : c.builtin? ≠ some .print)
    {b : Nat} : Level p b (lowering.callCode c) (b + 1) := (level_node _ hc).2 c rfl hprint

theorem level_value {e : Option Expression} (he : e.isSome)
    (h : ∀ e' ∈ e.toList, Proper p (.expression e')) {b : Nat} :
    Level p b (lowering.value e) (b + 1) := by
  obtain ⟨e, rfl⟩ := Option.isSome_iff_exists.mp he
  exact level_expression (h e (by simp))

/-- Nothing is expected of the value that a call statement leaves. -/
theorem level_callStatement {c : Call} (hc : Proper p (.call c)) :
    Level p 0 (callStatement c) 0 := by
  have arguments : Level p 0 (c.args.flatMap lowering.expression) (0 + c.args.length) :=
    level_expressions fun e he b => level_expression (hc.child (List.mem_map.mpr ⟨e, he, rfl⟩))
  rw [Nat.zero_add] at arguments
  refine ((level_comment _).append arguments).append ⟨?_, by simp [Entry.after]⟩
  exact ok_callInstruction hc.self.1 (Nat.le_refl _) (Nat.zero_le 1) fun _ => rfl

theorem level_increment {var : String} {step : Option Expression}
    (h : ∀ e ∈ step.toList, Proper p (.expression e)) : Level p 0 (increment var step) 0 := by
  refine Level.append (m := 1) ?_ (level_plain (Nat.le_refl 1) rfl (by simp) rfl)
  cases step with
  | some e => exact level_expression (h e (by simp))
  | none => exact level_push (.literal "1") rfl

/-- Joining leaves one of the verdicts. -/
theorem level_ors (count : Nat) :
    Level p (count + 1) (List.replicate count (.of (stackBinary .or))) 1 := by
  induction count with
  | zero => exact rfl
  | succ count ih =>
    rw [List.replicate_succ]
    exact (level_binary .or).append ih

theorem level_caseTest {scrutinee : Option Expression} (hs : scrutinee.isSome)
    (h : ∀ e ∈ scrutinee.toList, Proper p (.expression e)) {values : List Expression}
    (hne : values ≠ []) (hv : ∀ e ∈ values, Proper p (.expression e)) :
    Level p 0 (caseTest scrutinee values) 1 := by
  have comparisons {b : Nat} : Level p b (values.flatMap fun value =>
      lowering.value scrutinee ++ lowering.expression value ++ [.of (stackBinary .eq)])
        (b + values.length) := by
    clear hne
    induction values generalizing b with
    | nil => exact rfl
    | cons e es ih =>
      rw [List.flatMap_cons, List.length_cons, Nat.add_comm es.length, ← Nat.add_assoc]
      have left : Level p b (lowering.value scrutinee) (b + 1) := level_value hs h
      have both := left.append (level_expression (hv e List.mem_cons_self))
      have later : ∀ e' ∈ es, Proper p (.expression e') :=
        fun e' he' => hv e' (List.mem_cons_of_mem _ he')
      exact (both.append (level_binary .eq)).append (ih later)
  have first := comparisons (b := 0)
  have length : 0 + values.length = values.length - 1 + 1 := by
    have := List.length_pos_iff.mpr hne
    omega
  rw [length] at first
  exact first.append (level_ors _)

mutual

theorem level_statement (s : Statement) (h : Proper p s.node) : Level p 0 (statement s) 0 := by
  cases s with
  | assignment a =>
    exact (level_value h.self.1 fun e he => h.child (List.mem_map_of_mem he)).append (level_store _)
  | block b => exact level_block b h
  | conditional c => exact level_conditional c h
  | loop l => exact level_loop l h
  | switch s => exact level_switch s h
  | switchExit e => exact level_jump (Node.exitLabel_isLocal _ _)
  | loopExit e => exact level_jump (Node.exitLabel_isLocal _ _)
  | ret r =>
    exact (level_value h.self.1 fun e he => h.child (List.mem_map_of_mem he)).append level_out
  | call c => exact level_callStatement h

theorem level_statements (ss : List Statement) (h : ∀ s ∈ ss, Proper p s.node) :
    Level p 0 (statements ss) 0 := by
  cases ss with
  | nil => exact rfl
  | cons s ss =>
    exact (level_statement s (h s List.mem_cons_self)).append
      (level_statements ss fun s' hs' => h s' (List.mem_cons_of_mem _ hs'))

theorem level_block (b : Block) (h : Proper p (.block b)) : Level p 0 (block b) 0 := by
  obtain ⟨id, ss⟩ := b
  exact level_statements ss fun s hs => h.child (List.mem_map_of_mem hs)

theorem level_body (b : Option Block) (h : ∀ b' ∈ b.toList, Proper p (.block b')) :
    Level p 0 (body b) 0 := by
  cases b with
  | none => exact rfl
  | some b => exact level_block b (h b (by simp))

theorem level_conditional (c : Conditional) (h : Proper p (.conditional c)) :
    Level p 0 (conditional c) 0 := by
  obtain ⟨id, condition, thenBlock, elseBlock⟩ := c
  have test : Level p 0 (lowering.value condition) 1 :=
    level_value (e := condition) h.self.1 fun e he =>
      h.child (by simp [Node.children, Option.mem_toList.mp he])
  have yes : Level p 0 (body thenBlock) 0 :=
    level_body thenBlock fun b hb => h.child (by simp [Node.children, Option.mem_toList.mp hb])
  have no : Level p 0 (body elseBlock) 0 :=
    level_body elseBlock fun b hb => h.child (by simp [Node.children, Option.mem_toList.mp hb])
  have decision := ((level_comment "if").append test).append
    (level_jumpFalse (Node.elseLabel_isLocal ⟨id, condition, thenBlock, elseBlock⟩))
  have leap : Level p 0 [_, .of (.label (.forNode "Else" .conditional (some id)))] 0 :=
    level_leap (Node.exitLabel_isLocal .conditional (some id)) _
  exact (((decision.append yes).append leap).append no).append (level_label _)

theorem level_loop (l : Loop) (h : Proper p (.loop l)) : Level p 0 (loop l) 0 := by
  obtain ⟨id, var, start, stop, step, inner⟩ := l
  have first : Level p 0 (lowering.value start) 1 :=
    level_value (e := start) h.self.1.1 fun e he =>
      h.child (by simp [Node.children, Option.mem_toList.mp he])
  have last : Level p 1 (lowering.value stop) 2 :=
    level_value (e := stop) h.self.1.2 fun e he =>
      h.child (by simp [Node.children, Option.mem_toList.mp he])
  have amount : Level p 0 (increment var step) 0 :=
    level_increment fun e he => h.child (by simp [Node.children, Option.mem_toList.mp he])
  have round : Level p 0 (body inner) 0 :=
    level_body inner fun b hb => h.child (by simp [Node.children, Option.mem_toList.mp hb])
  have head := ((level_comment s!"for {var}").append first).append ((level_store var).append
    ((level_label (.forNode "Condition" .loop (some id))).append (level_push (.slot var) rfl)))
  have test := (head.append last).append
    ((level_binary .lessEq).append (level_jumpFalse (Node.exitLabel_isLocal .loop (some id))))
  exact ((test.append round).append amount).append
    (level_leap (Node.conditionLabel_isLocal ⟨id, var, start, stop, step, inner⟩) _)

theorem level_switch (s : Switch) (h : Proper p (.switch s)) : Level p 0 (switch s) 0 := by
  obtain ⟨id, scrutinee, cases, fallback, fallbackSeen⟩ := s
  have tests : Level p 0 (switchCases scrutinee _ cases) 0 :=
    level_switchCases (s := scrutinee) h.self.1
      (fun e he => h.child (by simp [Node.children, Option.mem_toList.mp he]))
      (Node.exitLabel_isLocal .switch (some id)) cases
      fun c hc => h.child (by simp [Node.children, hc])
  have otherwise : Level p 0 (body fallback) 0 :=
    level_body fallback fun b hb => h.child (by simp [Node.children, Option.mem_toList.mp hb])
  exact (((level_comment "switch").append tests).append otherwise).append (level_label _)

theorem level_switchCases {s : Option Expression} (hs : s.isSome)
    (h : ∀ e ∈ s.toList, Proper p (.expression e)) {exit : Label} (he : exit.IsLocal)
    (cases : List SwitchCase) (hc : ∀ c ∈ cases, Proper p (.switchCase c)) :
    Level p 0 (switchCases s exit cases) 0 := by
  match cases with
  | [] => exact rfl
  | c :: rest =>
    exact (level_switchCase hs h he c (hc c List.mem_cons_self)).append
      (level_switchCases hs h he rest fun c' hc' => hc c' (List.mem_cons_of_mem _ hc'))

theorem level_switchCase {s : Option Expression} (hs : s.isSome)
    (h : ∀ e ∈ s.toList, Proper p (.expression e)) {exit : Label} (he : exit.IsLocal)
    (c : SwitchCase) (hc : Proper p (.switchCase c)) : Level p 0 (switchCase s exit c) 0 := by
  obtain ⟨id, values, inner⟩ := c
  have test : Level p 0 (caseTest s values) 1 :=
    level_caseTest hs h hc.self.2 fun e he => hc.child (by simp [Node.children, he])
  have inside : Level p 0 (body inner) 0 :=
    level_body inner fun b hb => hc.child (by simp [Node.children, Option.mem_toList.mp hb])
  exact ((test.append (level_jumpFalse (Node.skipLabel_isLocal _))).append inside).append
    (level_leap he _)

end

/-- What stands between the label of a function and its end takes the arguments and leaves nothing. -/
theorem level_function {f : Function} (h : Proper p (.function f)) : ∃ inner,
    functionBody f = inner ++ [.of (.comment f.ending)] ∧ Level p f.params.length inner 0 := by
  refine ⟨_, rfl, ?_⟩
  have stores (names : List String) :
      Level p names.length (names.map fun name => .of (store name)) 0 := by
    induction names with
    | nil => exact rfl
    | cons name names ih => exact (level_store name).append ih
  have arguments := stores f.params.reverse
  rw [List.length_reverse] at arguments
  have inside : Level p 0 (body f.body) 0 :=
    level_body f.body fun b hb => h.child (List.mem_map_of_mem hb)
  have label : (Entry.mk (.label f.label) f.params.length f.params.length).Ok p f.params.length := by
    refine ⟨Nat.le_refl _, fun _ => rfl, ⟨rfl, fun bad => absurd rfl (bad f.name)⟩, ?_, ?_⟩
    · intro l hl
      cases hl
    · intro l hl
      cases hl
  refine Level.append ⟨label, ?_⟩ inside
  simpa [Entry.after] using arguments

end Ledger

end Assembly

theorem Script.sample_regular :
    (Node.program sampleProgram).Every (Node.Regular sampleProgram) := by
  have sum (op : Operator) (hop : op.isUnary = false) (a b : Leaf) :
      (Infix.binary op hop (.leaf a) (.leaf b)).Renders false [.leaf a, .operator op, .leaf b] :=
    .binary (.leaf a) (.leaf b) (by simp [Infix.leftNeedsParens, Infix.needsParens])
      (by simp [Infix.rightNeedsParens, Infix.needsParens])
  simp only [Node.Every, Node.subtree_eq, sampleProgram, Node.children, List.map_cons,
    List.map_nil, List.flatMap_cons, List.flatMap_nil, Option.toList_some, Statement.node,
    List.filterMap_cons, List.filterMap_nil, Token.node?, Leaf.node?, List.append_nil,
    List.cons_append, List.nil_append, List.forall_mem_cons, Node.Regular]
  refine ⟨trivial, trivial, trivial, rfl, ⟨⟨_, _, sum _ rfl _ _⟩, by simp⟩, trivial, trivial,
    trivial, rfl, ⟨⟨_, _, sum _ rfl _ _⟩, fun c hc => ?_⟩, ?_, ⟨⟨_, _, .leaf _⟩, by simp⟩, by simp⟩
  · obtain rfl : c = ⟨13, "inc", [⟨14, [.leaf (.constant ⟨15, "2"⟩)]⟩]⟩ := by simpa using hc
    decide
  · intro _ f hf
    cases hf
    rfl

end StackCompiler
