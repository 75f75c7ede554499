import StackCompiler.Proofs.Assembly.Level

/-!
How many values the calls that are not finished have on the stack at any moment of a run. They are
those that the ledger says, and besides one for every call statement that the run has executed.
-/

namespace StackCompiler.Machine

open Assembly

variable {p : Program} {position height : Nat}

/-- From here the code goes on to the end of its function, where nothing is left. -/
def InFunction (p : Program) (position height : Nat) : Prop := ∃ f ∈ p.functions, ∃ rest,
  CodeAt (Ledger.ofProgram p) position (rest ++ [.of (.comment f.ending)]) ∧ Level p height rest 0

/-- From here the code goes on to that position, where one more value is on the stack, however many
there were. -/
def InExpression (p : Program) (stop position height : Nat) : Prop := ∃ rest,
  CodeAt (Ledger.ofProgram p) position rest ∧ position + rest.length = stop ∧
    ∀ b, Level p (b + height) rest (b + 1)

/-- Control is where a function ends that did not return. -/
def AtEnding (p : Program) (position : Nat) : Prop :=
  ∃ f ∈ p.functions, (Assembly.ofProgram p)[position]? = some (.comment f.ending)

instance (p : Program) (position : Nat) : Decidable (AtEnding p position) :=
  inferInstanceAs (Decidable (∃ f ∈ p.functions, _))

theorem getElem?_ofProgram {e : Entry} (h : (Ledger.ofProgram p)[position]? = some e) :
    (Assembly.ofProgram p)[position]? = some e.instruction := by
  rw [← Ledger.map_ofProgram, List.getElem?_map, h]
  rfl

/-- What stands in the code is a comment, or control may come to it at one height. -/
theorem inFunction_of_getElem? (hp : Proper p (.program p)) {e : Entry}
    (h : (Ledger.ofProgram p)[position]? = some e) : (∃ text, e = .of (.comment text)) ∨
      ∃ height, InFunction p position height ∧ e.Ok p height := by
  obtain ⟨f, hf, start, offset, found, rfl, he⟩ := exists_codeAt_of_getElem? h
  obtain ⟨inner, hbody, level⟩ := Ledger.level_function (hp.child (List.mem_map_of_mem hf))
  rw [Ledger.function, hbody] at found he
  cases offset with
  | zero =>
    cases he
    exact .inl ⟨_, rfl⟩
  | succ offset =>
    rw [List.getElem?_cons_succ] at he
    by_cases inside : offset < inner.length
    · rw [List.getElem?_append_left inside] at he
      have split : inner = inner.take offset ++ e :: inner.drop (offset + 1) := by
        rw [List.getElem?_eq_getElem inside, Option.some.injEq] at he
        rw [← he, ← List.drop_eq_getElem_cons, List.take_append_drop]
      rw [split] at level found
      obtain ⟨height, -, level⟩ := level_append.mp level
      rw [codeAt_cons, List.append_assoc, codeAt_append,
        List.length_take_of_le (Nat.le_of_lt inside)] at found
      have here : start + 1 + offset = start + (offset + 1) := by omega
      rw [here] at found
      exact .inr ⟨height, ⟨f, hf, _, found.2.2, level⟩, level.1⟩
    · rw [List.getElem?_append_right (Nat.not_lt.mp inside)] at he
      exact .inl ⟨_, (List.mem_singleton.mp (List.mem_of_getElem? he))⟩

/-- Labels of nodes stand where nothing is on the stack. -/
theorem inFunction_label (hp : Proper p (.program p)) {l : Label} (hl : l.IsLocal)
    (h : labelPosition? (Assembly.ofProgram p) l = some position) : InFunction p position 0 := by
  have found := getElem?_of_labelPosition? h
  rw [← Ledger.map_ofProgram, List.getElem?_map, Option.map_eq_some_iff] at found
  obtain ⟨e, entry, instruction⟩ := found
  obtain ⟨text, comment⟩ | ⟨height, inside, ok⟩ := inFunction_of_getElem? hp entry
  · rw [comment] at instruction
    cases instruction
  · have fair := ok.fair
    rw [Entry.Fair, instruction] at fair
    have at0 : height = 0 := by
      rw [ok.control (by rw [instruction]; rfl), fair.2 hl]
    exact at0 ▸ inside

/-- A function starts with its arguments on the stack. -/
theorem inFunction_callee (hp : Proper p (.program p)) (linked : Linked p (Assembly.ofProgram p))
    {name : String} (h : labelPosition? (Assembly.ofProgram p) (.forFunction name) = some position) :
    ∃ f, p.function? name = some f ∧ InFunction p position f.params.length := by
  cases hf : p.function? name with
  | none =>
    rw [linked.missing hf] at h
    cases h
  | some f =>
    refine ⟨f, rfl, ?_⟩
    obtain ⟨before, after, split, -, found⟩ := labelPosition?_forFunction hf
    have start : CodeAt (Ledger.ofProgram p) (Ledger.ofProgram ⟨p.id, before⟩).length
        (Ledger.function f) := by
      rw [Ledger.ofProgram, split]
      exact codeAt_flatMap before f after
    have length : (Assembly.ofProgram ⟨p.id, before⟩).length =
        (Ledger.ofProgram ⟨p.id, before⟩).length := by
      rw [← Ledger.map_ofProgram, List.length_map]
    rw [h, length, Option.some.injEq] at found
    have member : f ∈ p.functions := by simp [split]
    obtain ⟨inner, hbody, level⟩ := Ledger.level_function (hp.child (List.mem_map_of_mem member))
    rw [Ledger.function, hbody, codeAt_cons, ← found] at start
    exact ⟨f, member, inner, start.2, level⟩

theorem InFunction.entry (h : InFunction p position height) (hend : ¬ AtEnding p position) :
    ∃ e, (Ledger.ofProgram p)[position]? = some e ∧ e.Ok p height ∧
      InFunction p (position + 1) (e.after height) := by
  obtain ⟨f, hf, rest, found, level⟩ := h
  cases rest with
  | nil => exact absurd ⟨f, hf, getElem?_ofProgram (codeAt_cons.mp found).1⟩ hend
  | cons e rest =>
    rw [List.cons_append, codeAt_cons] at found
    exact ⟨e, found.1, level.1, f, hf, rest, found.2, level.2⟩

/-- What is known of the places of the lowest call that a run is about: every step that does not call
leads to another such place until the run is finished, and no step leads below the call. -/
def Base (p : Program) (place : Nat → Nat → Prop) (finished : Nat → Prop)
    (below : List (Option Nat)) : Prop :=
  ∀ {position height}, place position height → ¬ finished position → ¬ AtEnding p position →
    ∃ e, (Ledger.ofProgram p)[position]? = some e ∧ e.Ok p height ∧
      place (position + 1) (e.after height) ∧
      (e.instruction.isControl → (∀ destination, InFunction p destination 0 → place destination 0) ∧
        ∀ r rest, below ≠ some r :: rest)

/-- Above the lowest call there are calls of functions. Each of them returns to a place from which
the call below it goes on, with its value or without it. -/
inductive Chain (p : Program) (place : Nat → Nat → Prop) :
    (position : Nat) → (returns : List (Option Nat)) → (counted pending : Nat) → Prop where
  | base {position height : Nat} (h : place position height) : Chain p place position [] height 0
  | call {position height caller counted pending gives leaves : Nat} {returns : List (Option Nat)}
      (h : InFunction p position height)
      (below : Chain p place caller returns (counted + gives) pending)
      (value : gives + leaves = 1) :
      Chain p place position (some caller :: returns) (counted + height) (pending + leaves)

variable {r : Nat} {place : Nat → Nat → Prop} {finished : Nat → Prop}
  {below returns : List (Option Nat)} {counted pending behind : Nat} {base : List Value}
  {s t : State}

theorem Chain.entry (lowest : Base p place finished below)
    (h : Chain p place position returns counted pending)
    (hgoes : returns = [] → ¬ finished position) (hend : ¬ AtEnding p position) :
    ∃ e height others, (Ledger.ofProgram p)[position]? = some e ∧
      e.Ok p height ∧ counted = others + height ∧
      Chain p place (position + 1) returns (others + e.after height) pending ∧
      (e.instruction.isControl → ∀ {destination}, InFunction p destination 0 →
        Chain p place destination returns others pending) := by
  cases h with
  | base hb =>
    obtain ⟨e, he, ok, next, control⟩ := lowest hb (hgoes rfl) hend
    refine ⟨e, counted, 0, he, ok, (Nat.zero_add _).symm, ?_, fun hc destination hd => ?_⟩
    · rw [Nat.zero_add]
      exact .base next
    · exact .base ((control hc).1 destination hd)
  | @call _ height caller others _ _ _ _ h below value =>
    obtain ⟨e, he, ok, next⟩ := h.entry hend
    refine ⟨e, height, others, he, ok, rfl, .call next below value, fun _ destination hd => ?_⟩
    have chain := Chain.call hd below value
    exact chain

/-- A call that returns gives one value to the call below it. -/
theorem Chain.out (h : Chain p place position (some r :: returns) counted pending) {e : Entry}
    (he : (Ledger.ofProgram p)[position]? = some e) (hout : e.instruction = .out)
    (hend : ¬ AtEnding p position) : ∃ others rest gives leaves, counted = others + 1 ∧
      pending = rest + leaves ∧ gives + leaves = 1 ∧
      Chain p place r returns (others + gives) rest := by
  cases h with
  | @call _ height _ others rest gives leaves _ h below value =>
    obtain ⟨e', he', ok, -⟩ := h.entry hend
    rw [he, Option.some.injEq] at he'
    subst he'
    have fair := ok.fair
    rw [Entry.Fair, hout] at fair
    have one : height = 1 := by
      rw [ok.control (by rw [hout]; rfl), fair.1]
      rfl
    exact ⟨others, rest, gives, leaves, by rw [one], rfl, value, below⟩

/-- On top of the lowest call's own values are those that the ledger counts and those that were left
behind. A pending call has not left its value yet. -/
def Balanced (p : Program) (place : Nat → Nat → Prop) (base : List Value)
    (below : List (Option Nat)) (behind : Nat) (s : State) : Prop :=
  ∃ returns counted pending left top, Chain p place s.position returns counted pending ∧
    s.returns = returns ++ below ∧ s.values.items = top ++ base ∧
    top.length = counted + left ∧ behind = pending + left

/-- One value at a call statement, unless it prints: it is left behind when the call is finished. -/
def leavesAt (p : Program) (position : Nat) : Nat :=
  (((Ledger.ofProgram p)[position]?).map Entry.leaves).getD 0

theorem Balanced.step (hp : Proper p (.program p)) (linked : Linked p (Assembly.ofProgram p))
    (lowest : Base p place finished below) (h : Balanced p place base below behind s)
    (hgoes : s.returns.length = below.length → ¬ finished s.position)
    (hend : ¬ AtEnding p s.position) (hs : step (Assembly.ofProgram p) s = .running t) :
    Balanced p place base below (behind + leavesAt p s.position) t := by
  obtain ⟨returns, counted, pending, left, top, chain, hreturns, hvalues, hlength, rfl⟩ := h
  have depth : returns = [] → ¬ finished s.position := fun hr => hgoes (by rw [hreturns, hr]; rfl)
  obtain ⟨e, height, others, entry, ok, hcounted, next, jump⟩ := chain.entry lowest depth hend
  have executed : s.execute (Assembly.ofProgram p) e.instruction = .running t := by
    rwa [Machine.step, getElem?_ofProgram entry] at hs
  have leaves : leavesAt p s.position = e.leaves := by rw [leavesAt, entry]; rfl
  rw [leaves]
  by_cases hcall : ∃ l, e.instruction = .call l
  · obtain ⟨l, hl⟩ := hcall
    rw [hl] at executed
    obtain ⟨hposition, hsame, hframes⟩ := execute_call executed
    obtain ⟨name, rfl, harity⟩ := ok.callee hl
    obtain ⟨f, hf, entered⟩ := inFunction_callee hp linked hposition
    have fair := ok.fair
    rw [Entry.Fair, hl] at fair
    have value : e.gives + e.leaves = 1 := by
      rw [Entry.leaves, hl]
      exact Nat.add_sub_cancel' fair
    have enough := ok.enough
    rw [Entry.after, ← Nat.add_assoc] at next
    have chain := Chain.call entered next value
    refine ⟨_, _, _, left, top, chain, ?_, ?_, ?_, ?_⟩
    · rw [hframes, hreturns]
      rfl
    · rw [hsame, hvalues]
    · rw [hlength, harity f hf]
      omega
    · omega
  · by_cases hout : e.instruction = .out
    · rw [hout] at executed
      obtain ⟨hframes, hsame⟩ := execute_out executed
      have nothing : e.leaves = 0 := by
        rw [Entry.leaves, hout]
        exact Nat.zero_sub _
      cases returns with
      | nil =>
        cases chain with
        | base hb =>
          obtain ⟨e', he', -, -, control⟩ := lowest hb (depth rfl) hend
          rw [entry, Option.some.injEq] at he'
          subst he'
          exact absurd (hreturns.symm.trans hframes) ((control (by rw [hout]; rfl)).2 _ _)
      | cons r returns =>
        rw [hreturns, List.cons_append, List.cons.injEq] at hframes
        obtain ⟨rfl, hrest⟩ := hframes
        obtain ⟨others', rest, gives, leaves', hcounted, rfl, value, chain⟩ :=
          chain.out entry hout hend
        refine ⟨returns, _, _, left + leaves', top, chain, hrest.symm, ?_, ?_, ?_⟩
        · rw [hsame, hvalues]
        · omega
        · omega
    · have balance := ok.fair.balance fun l hl => hcall ⟨l, hl⟩
      have stays : e.instruction.isLocal = true := by
        cases hi : e.instruction <;> first | rfl | simp_all
      obtain ⟨exchanges, continues⟩ := execute_local stays executed
      have enough := ok.enough
      obtain ⟨top', hitems, htop⟩ := exchanges.above hvalues (by omega)
      have length : top'.length = others + e.after height + (left + e.leaves) := by
        rw [Entry.after]
        omega
      have behind : pending + left + e.leaves = pending + (left + e.leaves) := Nat.add_assoc _ _ _
      rw [← exchanges.returns] at hreturns
      obtain hnext | ⟨l, hl, hdest⟩ := continues
      · rw [← hnext] at next
        exact ⟨_, _, _, _, _, next, hreturns, hitems, length, behind⟩
      · have control := Instruction.isControl_of_destination? hl
        have chain := jump control (inFunction_label hp (ok.inside hl) hdest)
        rw [ok.after_eq_zero hl] at length
        exact ⟨_, _, _, _, _, chain, hreturns, hitems, length, behind⟩

/-- What a run leaves behind in so many steps. -/
def leftBehind (p : Program) : Nat → State → Nat
  | 0, _ => 0
  | steps + 1, s => leavesAt p s.position +
    match step (Assembly.ofProgram p) s with
    | .running t => leftBehind p steps t
    | .halted _ _ => 0

theorem Balanced.run (hp : Proper p (.program p)) (linked : Linked p (Assembly.ofProgram p))
    (lowest : Base p place finished below) {steps : Nat} (h : Balanced p place base below behind s)
    (before : ∀ k < steps, ∀ u, resume (Assembly.ofProgram p) k (.running s) = .running u →
      (u.returns.length = below.length → ¬ finished u.position) ∧ ¬ AtEnding p u.position)
    (hs : resume (Assembly.ofProgram p) steps (.running s) = .running t) :
    Balanced p place base below (behind + leftBehind p steps s) t := by
  induction steps generalizing s behind with
  | zero =>
    cases hs
    exact h
  | succ steps ih =>
    rw [resume] at hs
    obtain ⟨hgoes, hend⟩ := before 0 (Nat.succ_pos steps) s rfl
    cases ht : Machine.step (Assembly.ofProgram p) s with
    | halted result console =>
      rw [ht] at hs
      cases steps <;> cases hs
    | running u =>
      rw [ht] at hs
      rw [leftBehind, ht, ← Nat.add_assoc]
      refine ih (h.step hp linked lowest hgoes hend ht) (fun k hk v hv => ?_) hs
      refine before (k + 1) (Nat.succ_lt_succ hk) v ?_
      rw [resume, ht, hv]

/-- Nothing in an expression jumps or returns. -/
theorem base_inExpression {stop : Nat} (below : List (Option Nat)) :
    Base p (InExpression p stop) (· = stop) below := by
  intro position height ⟨rest, found, hstop, level⟩ hgoes _
  cases rest with
  | nil => exact absurd hstop hgoes
  | cons e rest =>
    rw [codeAt_cons] at found
    have ok := (level 0).1
    rw [Nat.zero_add] at ok
    refine ⟨e, found.1, ok, ⟨rest, found.2, ?_, fun b => ?_⟩, fun control => ?_⟩
    · rw [← hstop, List.length_cons]
      omega
    · have after : e.after (b + height) = b + e.after height := by
        have := ok.enough
        rw [Entry.after, Entry.after]
        omega
      exact after ▸ (level b).2
    · have := ok.control control
      have := (level 1).1.control control
      omega

end StackCompiler.Machine
