import StackCompiler.Machine.Run

/-!
What single instructions do to the stack, to the frames and to the position. Only calls and returns
change the number of frames, and no instruction looks below the values that it takes.
-/

namespace StackCompiler

namespace Assembly

def Operand.takes : Operand → Nat
  | pop => 1
  | _ => 0

def Target.gives : Target → Nat
  | push => 1
  | _ => 0

namespace Instruction

/-- Calls take what the called function takes, which the instruction does not say. -/
def takes : Instruction → Nat
  | mov _ source => source.takes
  | unary _ source _ => source.takes
  | binary _ first second _ => first.takes + second.takes
  | jumpFalse _ condition => condition.takes
  | out => 1
  | print count | read count | unknown count => count
  | _ => 0

def gives : Instruction → Nat
  | mov target _ => target.gives
  | unary _ _ target => target.gives
  | binary _ _ _ target => target.gives
  | call _ | read _ | unknown _ => 1
  | _ => 0

/-- Instructions that control comes to or goes away from. -/
def isControl : Instruction → Bool
  | label _ | jump _ | jumpFalse .. | out => true
  | _ => false

def destination? : Instruction → Option Label
  | jump l | jumpFalse l _ => some l
  | _ => none

/-- The frames stay. -/
def isLocal : Instruction → Bool
  | call _ | out => false
  | _ => true

theorem isControl_of_destination? {i : Instruction} {l : Label} (h : i.destination? = some l) :
    i.isControl = true := by
  cases i <;> first | rfl | cases h

end Instruction

end Assembly

namespace Machine

open Assembly (Code Instruction Operand Target)

/-- The places where the calls that are not finished return to. -/
def State.returns (s : State) : List (Option Nat) := s.frames.map Frame.returnTo

/-- So many values were taken from the top, and so many others were put there. -/
structure Exchanges (takes gives : Nat) (s t : State) : Prop where
  enough : takes ≤ s.values.items.length
  values : ∃ given, given.length = gives ∧ t.values.items = given ++ s.values.items.drop takes
  returns : t.returns = s.returns

theorem Exchanges.trans {takes gives : Nat} {s t u : State} (h : Exchanges takes 0 s t)
    (h' : Exchanges 0 gives t u) : Exchanges takes gives s u where
  enough := h.enough
  values := by
    obtain ⟨given, hg, hu⟩ := h'.values
    obtain ⟨none, hn, ht⟩ := h.values
    rw [List.length_eq_zero_iff] at hn
    exact ⟨given, hg, by rw [hu, ht, hn]; rfl⟩
  returns := h'.returns.trans h.returns

theorem Exchanges.taken {first second : Nat} {s t u : State} (h : Exchanges first 0 s t)
    (h' : Exchanges second 0 t u) : Exchanges (first + second) 0 s u := by
  obtain ⟨none, hn, ht⟩ := h.values
  obtain ⟨none', hn', hu⟩ := h'.values
  rw [List.length_eq_zero_iff] at hn hn'
  subst hn hn'
  have enough := h'.enough
  rw [List.nil_append] at ht hu
  rw [ht, List.length_drop] at enough
  have := h.enough
  exact ⟨by omega, ⟨[], rfl, by rw [hu, ht, List.drop_drop, List.nil_append]⟩,
    h'.returns.trans h.returns⟩

theorem Exchanges.length {takes gives : Nat} {s t : State} (h : Exchanges takes gives s t) :
    t.values.items.length + takes = s.values.items.length + gives := by
  obtain ⟨given, hg, ht⟩ := h.values
  have := h.enough
  rw [ht, List.length_append, List.length_drop, hg]
  omega

/-- What is below the values that are taken stays there. -/
theorem Exchanges.above {takes gives : Nat} {s t : State} (h : Exchanges takes gives s t)
    {top base : List Value} (hs : s.values.items = top ++ base) (enough : takes ≤ top.length) :
    ∃ top', t.values.items = top' ++ base ∧ top'.length = top.length - takes + gives := by
  obtain ⟨given, hg, ht⟩ := h.values
  rw [hs, List.drop_append_of_le_length enough, ← List.append_assoc] at ht
  refine ⟨_, ht, ?_⟩
  rw [List.length_append, List.length_drop, hg, Nat.add_comm]

theorem exchanges_load {s t : State} {source : Operand} {v : Value}
    (h : s.load source = .ok (v, t)) : Exchanges source.takes 0 s t ∧ t.position = s.position := by
  cases source with
  | pop =>
    cases hs : s.values.items with
    | nil => simp [State.load, State.pop, Stack.pop?, hs] at h
    | cons w rest =>
      simp only [State.load, State.pop, Stack.pop?, hs, Except.ok.injEq, Prod.mk.injEq] at h
      obtain ⟨rfl, rfl⟩ := h
      exact ⟨⟨by simp [Operand.takes, hs], ⟨[], rfl, by simp [Operand.takes, hs]⟩, rfl⟩, rfl⟩
  | slot name =>
    simp only [State.load] at h
    split at h
    · cases h
    · split at h
      · cases h
        exact ⟨⟨Nat.zero_le _, ⟨[], rfl, rfl⟩, rfl⟩, rfl⟩
      · cases h
  | literal text =>
    simp only [State.load] at h
    split at h
    · cases h
      exact ⟨⟨Nat.zero_le _, ⟨[], rfl, rfl⟩, rfl⟩, rfl⟩
    · cases h

theorem exchanges_store {s t : State} {target : Target} {v : Value}
    (h : s.store v target = .ok t) : Exchanges 0 target.gives s t ∧ t.position = s.position := by
  cases target with
  | push =>
    cases h
    exact ⟨⟨Nat.zero_le _, ⟨[v], rfl, rfl⟩, rfl⟩, rfl⟩
  | slot name =>
    simp only [State.store] at h
    split at h
    · cases h
    · next frame rest hf =>
      cases h
      exact ⟨⟨Nat.zero_le _, ⟨[], rfl, rfl⟩, by simp [State.returns, hf]⟩, rfl⟩

theorem bind_eq_ok {ε α β : Type} {result : Except ε α} {f : α → Except ε β} {b : β}
    (h : result >>= f = .ok b) : ∃ a, result = .ok a ∧ f a = .ok b := by
  cases result with
  | ok a => exact ⟨a, rfl, h⟩
  | error cause => cases h

theorem andThen_eq_running {α : Type} {s t : State} {result : Except RunError α} {go : α → Outcome}
    (h : s.andThen result go = .running t) : ∃ a, result = .ok a ∧ go a = .running t := by
  cases result with
  | ok a => exact ⟨a, rfl, h⟩
  | error cause => cases h

theorem jump_eq_running {code : Code} {s t : State} {l : Label} (h : s.jump code l = .running t) :
    labelPosition? code l = some t.position ∧ Exchanges 0 0 s t := by
  simp only [State.jump] at h
  split at h
  · next position hl =>
    cases h
    exact ⟨hl, Nat.zero_le _, ⟨[], rfl, rfl⟩, rfl⟩
  · cases h

theorem Exchanges.refl (s : State) : Exchanges 0 0 s s := ⟨Nat.zero_le _, ⟨[], rfl, rfl⟩, rfl⟩

theorem Exchanges.next {takes gives : Nat} {s t u : State} (h : Exchanges takes gives s t)
    (hu : t.next = .running u) : Exchanges takes gives s u ∧ u.position = t.position + 1 := by
  cases hu
  exact ⟨⟨h.enough, h.values, h.returns⟩, rfl⟩

theorem exchanges_popMany {s : State} {count : Nat} {vs : List Value} {values : Stack Value}
    (h : s.values.popMany count = .ok (vs, values)) :
    count ≤ s.values.items.length ∧ values.items = s.values.items.drop count := by
  obtain ⟨enough, taken⟩ := Stack.popMany_eq_ok h
  cases taken
  exact ⟨enough, rfl⟩

theorem getElem?_of_labelPosition? {code : Code} {l : Label} {position : Nat}
    (h : labelPosition? code l = some position) : code[position]? = some (.label l) := by
  obtain ⟨hlt, hi, -⟩ := List.findIdx?_eq_some_iff_getElem.mp h
  rw [List.getElem?_eq_getElem hlt, beq_iff_eq.mp hi]

/-- Control goes on behind the instruction or at its destination. -/
def Continues (code : Code) (i : Instruction) (position position' : Nat) : Prop :=
  position' = position + 1 ∨ ∃ l, i.destination? = some l ∧ labelPosition? code l = some position'

/-- An instruction that neither calls nor returns takes and gives what it says, and the frames stay
apart from the variables of the innermost one. -/
theorem execute_local {code : Code} {s t : State} {i : Instruction} (hi : i.isLocal = true)
    (h : s.execute code i = .running t) :
    Exchanges i.takes i.gives s t ∧ Continues code i s.position t.position := by
  cases i with
  | comment text | label l =>
    obtain ⟨exchanges, position⟩ := (Exchanges.refl s).next h
    exact ⟨exchanges, .inl position⟩
  | mov target source =>
    obtain ⟨u, hu, ht⟩ := andThen_eq_running h
    obtain ⟨⟨v, s₁⟩, hload, hstore⟩ := bind_eq_ok hu
    have load := exchanges_load hload
    have store := exchanges_store hstore
    obtain ⟨exchanges, position⟩ := (load.1.trans store.1).next ht
    exact ⟨exchanges, .inl (by rw [position, store.2, load.2])⟩
  | unary op source target =>
    obtain ⟨u, hu, ht⟩ := andThen_eq_running h
    obtain ⟨⟨v, s₁⟩, hload, hu⟩ := bind_eq_ok hu
    obtain ⟨w, -, hstore⟩ := bind_eq_ok hu
    have load := exchanges_load hload
    have store := exchanges_store hstore
    obtain ⟨exchanges, position⟩ := (load.1.trans store.1).next ht
    exact ⟨exchanges, .inl (by rw [position, store.2, load.2])⟩
  | binary op first second target =>
    obtain ⟨u, hu, ht⟩ := andThen_eq_running h
    obtain ⟨⟨right, s₁⟩, hright, hu⟩ := bind_eq_ok hu
    obtain ⟨⟨left, s₂⟩, hleft, hu⟩ := bind_eq_ok hu
    obtain ⟨w, -, hstore⟩ := bind_eq_ok hu
    have right := exchanges_load hright
    have left := exchanges_load hleft
    have store := exchanges_store hstore
    obtain ⟨exchanges, position⟩ := ((right.1.taken left.1).trans store.1).next ht
    exact ⟨exchanges, .inl (by rw [position, store.2, left.2, right.2])⟩
  | jump l =>
    obtain ⟨position, exchanges⟩ := jump_eq_running h
    exact ⟨exchanges, .inr ⟨l, rfl, position⟩⟩
  | jumpFalse l condition =>
    obtain ⟨⟨v, s₁⟩, hload, h⟩ := andThen_eq_running h
    have load := exchanges_load hload
    dsimp only at h
    split at h
    · obtain ⟨exchanges, position⟩ := load.1.next h
      exact ⟨exchanges, .inl (by rw [position, load.2])⟩
    · obtain ⟨position, exchanges⟩ := jump_eq_running h
      exact ⟨load.1.trans exchanges, .inr ⟨l, rfl, position⟩⟩
  | call l | out => cases hi
  | print count =>
    simp only [State.execute, State.print] at h
    split at h
    · next vs values hpop =>
      obtain ⟨enough, rest⟩ := exchanges_popMany hpop
      cases h
      exact ⟨⟨enough, ⟨[], rfl, rest⟩, rfl⟩, .inl rfl⟩
    · cases h
  | read count =>
    simp only [State.execute, State.read] at h
    split at h
    · next vs values hpop =>
      obtain ⟨enough, rest⟩ := exchanges_popMany hpop
      split at h
      · next line console _ =>
        cases h
        have pushed := congrArg (Value.ofInput line :: ·) rest
        exact ⟨⟨enough, ⟨[.ofInput line], rfl, pushed⟩, rfl⟩, .inl rfl⟩
      · cases h
    · cases h
  | unknown arity => cases h

/-- A call takes nothing yet, and adds a frame that returns behind it. -/
theorem execute_call {code : Code} {s t : State} {l : Label}
    (h : s.execute code (.call l) = .running t) :
    labelPosition? code l = some t.position ∧ t.values = s.values ∧
      t.returns = some (s.position + 1) :: s.returns := by
  simp only [State.execute, State.call] at h
  split at h
  · next position hl =>
    cases h
    exact ⟨hl, rfl, rfl⟩
  · cases h

/-- A return takes the innermost frame away and nothing else. -/
theorem execute_out {code : Code} {s t : State} (h : s.execute code .out = .running t) :
    s.returns = some t.position :: t.returns ∧ t.values = s.values := by
  simp only [State.execute, State.leave] at h
  split at h
  · next position slots rest hf =>
    cases h
    exact ⟨by simp [State.returns, hf], rfl⟩
  · split at h <;> cases h

end Machine

end StackCompiler
