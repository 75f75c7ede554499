import StackCompiler.Proofs.Script.Built
import StackCompiler.Proofs.Semantics.Statements

/-!
The machine does what the interpreter does, by induction on the interpreter's fuel: calls, loops and
nested nodes all have less of it.
-/

namespace StackCompiler

/-- A call within an expression reads a line or calls a function with as many arguments as that
has parameters. -/
def Call.Fits (p : Program) (c : Call) : Prop :=
  c.builtin? ≠ some .print ∧
    (c.builtin? = none → ∃ f, p.function? c.name = some f ∧ f.params.length = c.args.length)

/-- Nothing that the interpreter needs is missing in the node itself. The reading of an expression
is the tree that its tokens render. -/
def Node.Fits (p : Program) (reading : Expression → Infix Leaf) : Node → Prop
  | assignment a => a.value.isSome
  | ret r => r.value.isSome
  | conditional c => c.condition.isSome
  | loop l => l.start.isSome ∧ l.stop.isSome
  | switch s => s.scrutinee.isSome
  | block b => ∀ c, .call c ∈ b.statements → c.builtin? = some .print
  | expression e => (∃ enclosed, (reading e).Renders enclosed e.tokens) ∧
      ∀ c, .leaf (.call c) ∈ e.tokens → c.Fits p
  | _ => True

/-- The interpreter can walk every node, and the entry function needs no arguments. -/
structure Program.WellFormed (p : Program) (reading : Expression → Infix Leaf) : Prop where
  nodes : (Node.program p).Every (Node.Fits p reading)
  entry : ∀ f, p.main? = some f → f.params = []

namespace Semantics

open Assembly Machine

/-- Both what the interpreter needs and what every construction gives. -/
def Sound (p : Program) (reading : Expression → Infix Leaf) (n : Node) : Prop :=
  n.Every fun m => m.Fits p reading ∧ m.HasValues

/-- The machine does as the interpreter does with so much fuel. -/
structure Agrees (p : Program) (reading : Expression → Infix Leaf) (code : Code) (fuel : Nat) :
    Prop where
  expression : ∀ {e : Expression}, Sound p reading (.expression e) → ∀ {k : Context},
    Evaluates code k (valueOf p reading fuel) e
  leaf : ∀ {l : Leaf}, (∀ c, l = .call c → Sound p reading (.call c) ∧ c.Fits p) →
    ∀ {k : Context} {position pushed s}, CodeAt code position (lowering.leaf l) →
      Simulates code (k.at position pushed s) (leafValue p reading fuel l s)
        (k.Pushed (position + (lowering.leaf l).length) pushed)
  enter : ∀ {name : String} {f : Function} {args : List Value}, p.function? name = some f →
    f.params.length = args.length → ∀ {k : Context} {position : Nat} {pushed s},
      code[position]? = some (.call (.forFunction name)) →
        Simulates code (k.at position (args.reverse ++ pushed) s) (enter p reading fuel f args s)
          (k.Pushed (position + 1) pushed)
  statement : ∀ {st : Statement}, Sound p reading st.node →
    (∀ c, st = .call c → c.builtin? = some .print) →
      ∀ {k : Context}, Executes code k (walk p reading fuel) st
  rounds : ∀ {l : Loop}, Sound p reading (.loop l) → ∀ {k : Context} {position : Nat},
    CodeAt code position (loop l) → ∀ s,
      Simulates code (k.at (position + conditionOffset l) [] s) (rounds p reading fuel l s)
        (k.Left code (position + (loop l).length))

variable {p : Program} {reading : Expression → Infix Leaf} {code : Code} {fuel : Nat} {k : Context}

theorem simulates_outOfFuel {α : Type} {o : Outcome} {s : Store}
    {target : α → Store → Outcome → Prop} :
    Simulates code o ((throw .outOfFuel : Exec α) s) target := trivial

theorem Agrees.zero : Agrees p reading code 0 where
  expression _ _ _ _ _ _ := simulates_outOfFuel
  leaf _ _ _ _ _ _ := simulates_outOfFuel
  enter _ _ _ _ _ _ _ := simulates_outOfFuel
  statement _ _ _ _ _ _ := simulates_outOfFuel
  rounds _ _ _ _ _ := simulates_outOfFuel

/-- The last argument is on top, so the last parameter is stored first. -/
theorem reaches_stores {params : List String} {args : List Value}
    (h : params.length = args.length) {position : Nat} (pushed : List Value) (console : Console)
    (hc : CodeAt code position (params.reverse.map store)) :
    Reaches code (k.at position (args.reverse ++ pushed) ⟨[], console⟩)
      (k.at (position + params.length) pushed ⟨bindParams params args, console⟩) := by
  induction params generalizing args pushed with
  | nil =>
    obtain rfl := List.length_eq_zero_iff.mp h.symm
    exact .refl
  | cons x xs ih =>
    cases args with
    | nil => cases h
    | cons v vs =>
      simp only [List.reverse_cons, List.map_append, List.map_cons, List.map_nil, codeAt_append,
        codeAt_cons, List.length_map, List.length_reverse] at hc
      have first := ih (Nat.succ.inj h) (v :: pushed) hc.1
      obtain ⟨o, last, rfl⟩ : Simulates code
          (k.at (position + xs.length) (v :: pushed) ⟨bindParams xs vs, console⟩)
          (put x v ⟨bindParams xs vs, console⟩)
          fun _ t o => o = k.at (position + xs.length + 1) pushed t := simulates_put hc.2.1
      rw [List.reverse_cons, List.append_assoc]
      exact first.trans last

theorem Simulates.inCall {α : Type} {vars : List (String × Value)} {m : Exec α} {o : Outcome}
    {s : Store} {target later : α → Store → Outcome → Prop}
    (h : Simulates code o (m ⟨vars, s.console⟩) target)
    (ht : ∀ a t o, target a t o → ∃ o', Reaches code o o' ∧ later a { t with vars := s.vars } o') :
    Simulates code o (inCall vars m s) later := by
  unfold Semantics.inCall
  cases hr : m ⟨vars, s.console⟩ with
  | ok a t =>
    rw [hr] at h
    obtain ⟨o', reach, h⟩ := h
    obtain ⟨o'', reach', h'⟩ := ht a t o' h
    exact ⟨o'', reach.trans reach', h'⟩
  | error stop t =>
    rw [hr] at h
    cases stop <;> exact h

/-- The call ends at a return, with the result alone on its part of the stack. -/
def Context.AtReturn (k : Context) (code : Code) (v : Value) (t : Store) (o : Outcome) : Prop :=
  ∃ j, code[j]? = some .out ∧ o = k.at j [v] t

theorem Sound.child {n c : Node} (h : Sound p reading n) (hc : c ∈ n.children) :
    Sound p reading c := Node.Every.child h hc

theorem Sound.statements {b : Block} (h : Sound p reading (.block b)) {st : Statement}
    (hst : st ∈ b.statements) :
    Sound p reading st.node ∧ ∀ c, st = .call c → c.builtin? = some .print :=
  ⟨h.child (List.mem_map.mpr ⟨st, hst, rfl⟩), fun c hc => (Node.Every.self h).1 c (hc ▸ hst)⟩

namespace Agrees

variable (agrees : Agrees p reading code fuel)

include agrees

theorem block {b : Block} (h : Sound p reading (.block b)) :
    ∀ st ∈ b.statements, Executes code k (walk p reading fuel) st := fun _ hst =>
  agrees.statement (h.statements hst).1 (h.statements hst).2

theorem expressions {es : List Expression} (h : ∀ e ∈ es, Sound p reading (.expression e)) :
    ∀ e ∈ es, Evaluates code k (valueOf p reading fuel) e := fun e he => agrees.expression (h e he)

theorem succ_expression {e : Expression} (h : Sound p reading (.expression e)) :
    Evaluates code k (valueOf p reading (fuel + 1)) e := by
  intro position pushed s hc
  obtain ⟨⟨⟨enclosed, renders⟩, calls⟩, -⟩ := Node.Every.self h
  rw [renders.lower_eq] at hc ⊢
  refine simulates_evaluate (fun l hl => agrees.leaf fun c hcall => ?_) hc
  subst hcall
  have token := renders.mem_tokens hl
  exact ⟨h.child (List.mem_filterMap.mpr ⟨_, token, rfl⟩), calls c token⟩

theorem succ_leaf {l : Leaf} (h : ∀ c, l = .call c → Sound p reading (.call c) ∧ c.Fits p)
    {position : Nat} {pushed : List Value} {s : Store} (hc : CodeAt code position (lowering.leaf l)) :
    Simulates code (k.at position pushed s) (leafValue p reading (fuel + 1) l s)
      (k.Pushed (position + (lowering.leaf l).length) pushed) := by
  cases l with
  | identifier i => exact simulates_fetch (codeAt_cons.mp hc).1
  | constant c => exact simulates_constant (codeAt_cons.mp hc).1
  | call c =>
    obtain ⟨sound, fits, arity⟩ := h c rfl
    have code_eq : lowering.leaf (.call c) = lowering.callCode c := rfl
    rw [code_eq, callCode_eq] at hc ⊢
    simp only [List.cons_append, codeAt_cons, codeAt_append] at hc
    obtain ⟨hcomment, hargs, hcall, -⟩ := hc
    have length : position + (Instruction.comment s!"call {c.name} with {c.args.length} args" ::
        c.args.flatMap lowering.expression ++ [callInstruction c.name c.args.length]).length =
          position + 1 + (c.args.flatMap lowering.expression).length + 1 := by
      simp only [List.cons_append, List.length_append, List.length_cons, List.length_nil]
      omega
    rw [length]
    refine .after (reaches_comment hcomment) ?_
    have args : ∀ e ∈ c.args, Evaluates code k (valueOf p reading fuel) e :=
      agrees.expressions fun e he => sound.child (List.mem_map.mpr ⟨e, he, rfl⟩)
    refine (simulates_evaluateAll args hargs).bind fun vs t o ho => ?_
    obtain ⟨hlen, ho⟩ := ho
    rw [show o = _ from ho]
    unfold callInstruction at hcall
    rw [Call.builtin?] at fits arity ⊢
    cases hb : Builtin.ofName? c.name with
    | some b =>
      cases b with
      | print => exact absurd hb fits
      | read =>
        rw [hb, ← hlen] at hcall
        exact simulates_readLine hcall
    | none =>
      rw [hb] at hcall
      obtain ⟨f, hf, hp⟩ := arity hb
      simp only [hf]
      exact agrees.enter hf (hp.trans hlen.symm) hcall

/-- What a function does from behind its label to one of its returns. -/
theorem frame {f : Function} {args : List Value} (sound : Sound p reading (.function f))
    (hlen : f.params.length = args.length) {start : Nat}
    (hc : CodeAt code start (Assembly.function f)) (console : Console) :
    Simulates code (k.at (start + 2) args.reverse ⟨[], console⟩)
      ((do
        match ← walkBody (walk p reading fuel) f.body with
        | .returned v => return v
        | _ => throw .meaningless : Exec Value) ⟨bindParams f.params args, console⟩)
      (k.AtReturn code) := by
  simp only [Assembly.function, List.cons_append, List.nil_append, List.append_assoc, codeAt_cons,
    codeAt_append] at hc
  obtain ⟨-, -, hstores, hbody, -⟩ := hc
  have stored := reaches_stores (k := k) hlen [] console hstores
  rw [List.append_nil] at stored
  rw [List.length_map, List.length_reverse] at hbody
  refine .after stored ((simulates_walkBody (fun b hb => ?_) hbody).bind fun flow t o ho => ?_)
  · exact agrees.block (sound.child (List.mem_map.mpr ⟨b, hb, rfl⟩))
  · cases flow with
    | returned v => exact .pure ho
    | onward | leaveSwitch target | leaveLoop target => trivial

theorem succ_enter (linked : Linked p code) (sound : Sound p reading (.program p)) {name : String}
    {f : Function} {args : List Value} (hf : p.function? name = some f)
    (hlen : f.params.length = args.length) {position : Nat} {pushed : List Value} {s : Store}
    (hcall : code[position]? = some (.call (.forFunction name))) :
    Simulates code (k.at position (args.reverse ++ pushed) s)
      (Semantics.enter p reading (fuel + 1) f args s) (k.Pushed (position + 1) pushed) := by
  obtain ⟨start, hc, hstart⟩ := linked.function hf
  have label : code[start + 1]? = some (.label f.label) := by
    simp only [Assembly.function, List.cons_append, List.nil_append, codeAt_cons] at hc
    exact hc.2.1
  let inner : Context :=
    ⟨some (position + 1), pushed ++ k.values, ⟨k.returnTo, s.vars⟩ :: k.frames⟩
  have called : Reaches code (k.at position (args.reverse ++ pushed) s)
      (inner.at (start + 1) args.reverse ⟨[], s.console⟩) := by
    refine .step hcall ?_
    simp [State.execute, State.call, hstart, Context.at, inner]
  rw [Semantics.enter, if_pos hlen]
  refine .after (called.trans (reaches_label label)) ?_
  have body := agrees.frame (k := inner) (sound.child (Program.function?_eq_some hf).2) hlen hc
    s.console
  refine body.inCall fun v t o ho => ?_
  obtain ⟨j, hout, rfl⟩ := ho
  exact ⟨_, .step hout rfl, rfl⟩

theorem succ_statement (resolved : Resolved code) {st : Statement} (sound : Sound p reading st.node)
    (hprint : ∀ c, st = .call c → c.builtin? = some .print) :
    Executes code k (walk p reading (fuel + 1)) st := by
  intro position s hc
  have own := (Node.Every.self sound).1
  have expressions {e : Option Expression} (h : ∀ e' ∈ e.toList, .expression e' ∈ st.node.children) :
      ∀ e' ∈ e.toList, Evaluates code k (valueOf p reading fuel) e' :=
    fun e' he' => agrees.expression (sound.child (h e' he'))
  have blocks {b : Option Block} (h : ∀ b' ∈ b.toList, .block b' ∈ st.node.children) :
      ∀ b' ∈ b.toList, ∀ st' ∈ b'.statements, Executes code k (walk p reading fuel) st' :=
    fun b' hb' => agrees.block (sound.child (h b' hb'))
  cases st with
  | assignment a =>
    rw [Assembly.statement, codeAt_append, codeAt_cons] at hc
    rw [Assembly.statement, List.length_append, ← Nat.add_assoc]
    refine (simulates_evaluateField own (expressions fun e he => ?_) hc.1).bind fun v t o ho => ?_
    · exact List.mem_map.mpr ⟨e, he, rfl⟩
    · rw [show o = _ from ho]
      refine (simulates_put hc.2.1).bind fun _ t' o' ho' => ?_
      exact .pure ho'
  | block b =>
    obtain ⟨id, ss⟩ := b
    exact simulates_walkAll (agrees.block sound) hc
  | conditional c =>
    exact simulates_conditional resolved own
      (expressions fun e he => List.mem_append_left _ (List.mem_map.mpr ⟨e, he, rfl⟩))
      (blocks fun b hb => List.mem_append_right _ (List.mem_map.mpr ⟨b, by simp [hb], rfl⟩))
      (blocks fun b hb => List.mem_append_right _ (List.mem_map.mpr ⟨b, by simp [hb], rfl⟩)) hc
  | loop l =>
    have rounds := agrees.rounds (k := k) sound hc
    rw [Assembly.statement, loop_eq] at hc
    simp only [List.cons_append, List.append_assoc, List.nil_append, codeAt_cons,
      codeAt_append] at hc
    obtain ⟨hcomment, hstart, hstore, -⟩ := hc
    have begin_ : position + conditionOffset l =
        position + 1 + (lowering.value l.start).length + 1 := by
      rw [conditionOffset, ← Nat.add_assoc, ← Nat.add_assoc]
    rw [begin_] at rounds
    refine .after (reaches_comment hcomment) ?_
    refine (simulates_evaluateField own.1 (expressions fun e he => ?_) hstart).bind
      fun v t o ho => ?_
    · simp [Statement.node, Node.children, Option.mem_toList.mp he]
    · rw [show o = _ from ho]
      refine (simulates_put hstore).bind fun _ t' o' ho' => ?_
      rw [ho']
      exact rounds t'
  | switch w =>
    refine simulates_switch resolved own (expressions fun e he => ?_) (blocks fun b hb => ?_)
      (fun c hcase => ?_) (fun c hcase b hb => ?_) hc
    · simp [Statement.node, Node.children, Option.mem_toList.mp he]
    · exact List.mem_append_right _ (List.mem_map.mpr ⟨b, hb, rfl⟩)
    all_goals
      have case := sound.child (c := .switchCase c)
        (List.mem_append_left _ (List.mem_append_right _ (List.mem_map.mpr ⟨c, hcase, rfl⟩)))
    · refine ⟨(Node.Every.self case).2, agrees.expressions fun e he => case.child ?_⟩
      exact List.mem_append_left _ (List.mem_map.mpr ⟨e, he, rfl⟩)
    · exact agrees.block
        (case.child (List.mem_append_right _ (List.mem_map.mpr ⟨b, hb, rfl⟩)))
  | switchExit e => exact .pure ⟨position, (codeAt_cons.mp hc).1, rfl⟩
  | loopExit e => exact .pure ⟨position, (codeAt_cons.mp hc).1, rfl⟩
  | ret r =>
    rw [Assembly.statement, codeAt_append, codeAt_cons] at hc
    refine (simulates_evaluateField own (expressions fun e he => ?_) hc.1).bind fun v t o ho => ?_
    · exact List.mem_map.mpr ⟨e, he, rfl⟩
    · exact .pure ⟨_, hc.2.1, ho⟩
  | call c =>
    have name : Builtin.ofName? c.name = some .print := hprint c rfl
    rw [Assembly.statement, callCode_eq] at hc ⊢
    simp only [List.cons_append, codeAt_cons, codeAt_append, callInstruction, name] at hc
    obtain ⟨hcomment, hargs, hcall, -⟩ := hc
    have args : ∀ e ∈ c.args, Evaluates code k (valueOf p reading fuel) e :=
      agrees.expressions fun e he => sound.child (List.mem_map.mpr ⟨e, he, rfl⟩)
    refine .after (reaches_comment hcomment) ?_
    refine (simulates_evaluateAll args hargs).bind fun vs t o ho => ?_
    obtain ⟨hlen, ho⟩ := ho
    rw [show o = _ from ho]
    rw [← hlen] at hcall
    rw [hprint c rfl]
    refine (simulates_print hcall).bind fun _ t' o' ho' => ?_
    refine .pure (ho'.trans ?_)
    simp only [List.cons_append, List.length_append, List.length_cons, List.length_nil]
    congr 1
    omega

theorem succ_rounds (resolved : Resolved code) {l : Loop} (sound : Sound p reading (.loop l))
    {position : Nat} (hc : CodeAt code position (loop l)) (s : Store) :
    Simulates code (k.at (position + conditionOffset l) [] s)
      (Semantics.rounds p reading (fuel + 1) l s) (k.Left code (position + (loop l).length)) := by
  refine simulates_round resolved (Node.Every.self sound).1.2
    (fun e he => agrees.expression (sound.child ?_))
    (fun e he => agrees.expression (sound.child ?_))
    (fun b hb => agrees.block (sound.child ?_)) hc (agrees.rounds sound hc)
  · simp [Node.children, Option.mem_toList.mp he]
  · simp [Node.children, Option.mem_toList.mp he]
  · exact List.mem_append_right _ (List.mem_map.mpr ⟨b, hb, rfl⟩)

end Agrees

theorem agrees (linked : Linked p code) (sound : Sound p reading (.program p)) (fuel : Nat) :
    Agrees p reading code fuel := by
  induction fuel with
  | zero => exact .zero
  | succ fuel ih =>
    exact {
      expression := fun h _ => ih.succ_expression h
      leaf := fun h _ _ _ _ hc => ih.succ_leaf h hc
      enter := fun hf hlen _ _ _ _ hcall => ih.succ_enter linked sound hf hlen hcall
      statement := fun h hp _ => ih.succ_statement linked.node h hp
      rounds := fun h _ _ hc s => ih.succ_rounds linked.node h hc s }

/-- A run starts in the function that the interpreter starts with. -/
theorem start_entry (linked : Linked p code) {f : Function} (hf : p.main? = some f)
    (console : Console) : ∃ position, CodeAt code position (Assembly.function f) ∧
      start code console = (⟨none, [], []⟩ : Context).at (position + 2) [] ⟨[], console⟩ := by
  have found {position : Nat} (h : entry? code = some (position + 1)) :
      start code console = (⟨none, [], []⟩ : Context).at (position + 2) [] ⟨[], console⟩ := by
    rw [start, h]
    rfl
  unfold Program.main? at hf
  cases hm : p.function? "_main_" with
  | some g =>
    obtain ⟨position, hc, hl⟩ := linked.function hm
    rw [hm] at hf
    cases hf
    exact ⟨position, hc, found (by rw [ entry?, hl]; rfl)⟩
  | none =>
    rw [hm] at hf
    obtain ⟨position, hc, hl⟩ := linked.function (show p.function? "main" = some f from hf)
    exact ⟨position, hc, found (by rw [ entry?, linked.missing hm, hl]; rfl)⟩

theorem start_missing (linked : Linked p code) (h : p.main? = none) (console : Console) :
    start code console = .halted (.error .missingEntry) console := by
  rw [Program.main?, Option.or_eq_none_iff] at h
  rw [start, entry?, linked.missing h.1, linked.missing h.2]
  rfl

/-- The whole run, from the entry function to its return. -/
theorem simulates_run (linked : Linked p code) (sound : Sound p reading (.program p))
    (entry : ∀ f, p.main? = some f → f.params = []) (console : Console) (fuel : Nat) :
    Simulates code (start code console) (run p reading fuel ⟨[], console⟩)
      fun v t o => o = .halted (.ok v) t.console := by
  unfold run
  cases hf : p.main? with
  | none =>
    rw [start_missing linked hf]
    exact .refl
  | some f =>
    obtain ⟨position, hc, hstart⟩ := start_entry linked hf console
    have noParams := entry f hf
    have sound_f : Sound p reading (.function f) := by
      obtain ⟨name, hname⟩ : ∃ name, p.function? name = some f := by
        obtain h | ⟨-, h⟩ := Option.or_eq_some_iff.mp hf
        · exact ⟨_, h⟩
        · exact ⟨_, h⟩
      exact sound.child (Program.function?_eq_some hname).2
    rw [hstart]
    cases fuel with
    | zero => trivial
    | succ fuel =>
      have arity : f.params.length = ([] : List Value).length := by rw [noParams]; rfl
      simp only [Semantics.enter, if_pos arity]
      have body := (agrees linked sound fuel).frame (k := ⟨none, [], []⟩) sound_f arity hc console
      refine body.inCall fun v t o ho => ?_
      obtain ⟨j, hout, rfl⟩ := ho
      exact ⟨_, .step hout rfl, rfl⟩

end Semantics

open Assembly Machine Semantics in
/-- What the interpreter computes and prints, the compiled program computes and prints, and where the
interpreter fails, the compiled program fails in the same way. -/
theorem Script.compile_correct {source : String} {built : Built} (h : replay source = .ok built)
    {reading : Expression → Infix Leaf} (wellFormed : built.program.WellFormed reading)
    (console : Console) (fuel : Nat) :
    match Semantics.run built.program reading fuel ⟨[], console⟩ with
    | .ok v t => ∃ steps, resume (ofProgram built.program) steps
        (start (ofProgram built.program) console) = .halted (.ok v) t.console
    | .error (.fault cause) t => ∃ steps, resume (ofProgram built.program) steps
        (start (ofProgram built.program) console) = .halted (.error cause) t.console
    | .error .illFormed _ => False
    | .error .meaningless _ | .error .outOfFuel _ => True := by
  have sound : Sound built.program reading (.program built.program) := fun n hn =>
    ⟨wellFormed.nodes n hn, replay_every (kept_hasValues _) h n hn⟩
  have linked := linked_ofProgram (replay_ids_nodup h)
  have whole := simulates_run linked sound wellFormed.entry console fuel
  cases hr : Semantics.run built.program reading fuel ⟨[], console⟩ with
  | ok v t =>
    rw [hr] at whole
    obtain ⟨o, reach, rfl⟩ := whole
    exact reach
  | error stop t =>
    rw [hr] at whole
    cases stop <;> exact whole

namespace Script

/-- Reads one operator between two operands, or one operand alone. -/
def sampleReading (e : Expression) : Infix Leaf :=
  match e.tokens with
  | [.leaf a, .operator .add, .leaf b] => .binary .add rfl (.leaf a) (.leaf b)
  | [.leaf a, .operator .subtract, .leaf b] => .binary .subtract rfl (.leaf a) (.leaf b)
  | .leaf a :: _ => .leaf a
  | _ => .leaf (.identifier { id := 0 })

theorem sample_wellFormed : sampleProgram.WellFormed sampleReading where
  nodes := by
    have operand (a : Leaf) : (Infix.leaf a).Renders false [.leaf a] := .leaf a
    have sum (op : Operator) (hop : op.isUnary = false) (a b : Leaf) :
        (Infix.binary op hop (.leaf a) (.leaf b)).Renders false [.leaf a, .operator op, .leaf b] :=
      .binary (.leaf a) (.leaf b) (by simp [Infix.leftNeedsParens, Infix.needsParens])
        (by simp [Infix.rightNeedsParens, Infix.needsParens])
    simp only [Node.Every, Node.subtree_eq, sampleProgram, Node.children, List.map_cons,
      List.map_nil, List.flatMap_cons, List.flatMap_nil, Option.toList_some, Statement.node,
      List.filterMap_cons, List.filterMap_nil, Token.node?, Leaf.node?, List.append_nil,
      List.cons_append, List.nil_append, List.forall_mem_cons, Node.Fits]
    refine ⟨trivial, trivial, by simp, rfl, ⟨⟨_, sum _ rfl _ _⟩, by simp⟩, trivial, trivial, by simp,
      rfl, ⟨⟨_, sum _ rfl _ _⟩, fun c hc => ?_⟩, trivial, ⟨⟨_, operand _⟩, by simp⟩, by simp⟩
    obtain rfl : c = ⟨13, "inc", [⟨14, [.leaf (.constant ⟨15, "2"⟩)]⟩]⟩ := by simpa using hc
    exact ⟨by decide, fun _ => ⟨_, rfl, rfl⟩⟩
  entry := by
    intro f hf
    cases hf
    rfl

def isSeven : EStateM.Result Semantics.Stop Semantics.Store Machine.Value → Bool
  | .ok (.number x) t => x == 7 && t.console == {}
  | _ => false

theorem compile_correct_sample : ∃ steps x t, Machine.resume (Assembly.ofProgram sampleProgram) steps
    (Machine.start (Assembly.ofProgram sampleProgram) {}) = .halted (.ok (.number x)) t ∧
      (x == 7) = true ∧ t = {} := by
  have whole := compile_correct replay_sample sample_wellFormed {} 8
  have walk : isSeven (Semantics.run sampleProgram sampleReading 8 ⟨[], {}⟩) = true := by
    decide +kernel
  cases hr : Semantics.run sampleProgram sampleReading 8 ⟨[], {}⟩ with
  | ok v t =>
    rw [hr] at whole walk
    cases v with
    | number x =>
      obtain ⟨steps, h⟩ := whole
      rw [isSeven, Bool.and_eq_true] at walk
      exact ⟨steps, x, t.console, h, walk.1, eq_of_beq walk.2⟩
    | str text => cases walk
  | error stop t =>
    rw [hr] at walk
    cases walk

end Script

end StackCompiler
