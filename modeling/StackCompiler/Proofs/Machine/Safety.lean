import StackCompiler.Proofs.Assembly.Endings
import StackCompiler.Proofs.Machine.Balance
import StackCompiler.Proofs.Machine.Frames

/-!
Code whose functions all return never runs out of values, of frames or of instructions, however long
it runs and whatever else stops it.
-/

namespace StackCompiler.Machine

open Assembly Script

/-- Something that the code takes for granted is not there. -/
def RunError.IsShortage : RunError → Prop
  | emptyStack | underflow _ | noFrame | ranOffEnd => True
  | _ => False

/-- If the computation fails then for another reason than a shortage. -/
def Safe {α : Type} (result : Except RunError α) : Prop :=
  ∀ cause, result = .error cause → ¬ cause.IsShortage

/-- A run that has stopped with an error did so for another reason than a shortage. -/
def Outcome.Safe (o : Outcome) : Prop :=
  ∀ cause console, o = .halted (.error cause) console → ¬ cause.IsShortage

section

variable {code : Code} {s : State} {α : Type}

theorem Safe.ok (a : α) : Safe (.ok a) := by
  rintro _ ⟨⟩

theorem Safe.error {cause : RunError} (h : ¬ cause.IsShortage) :
    Safe (.error cause : Except _ α) := by
  rintro _ ⟨⟩
  exact h

theorem Safe.bind {β : Type} {result : Except RunError α} {f : α → Except RunError β}
    (h : Safe result) (go : ∀ a, result = .ok a → Safe (f a)) : Safe (result >>= f) := by
  cases result with
  | ok a => exact go a rfl
  | error cause => exact .error (h cause rfl)

namespace Outcome

theorem safe_running (s : State) : (running s).Safe := by
  rintro _ _ ⟨⟩

theorem safe_fail (s : State) {cause : RunError} (h : ¬ cause.IsShortage) :
    (s.fail cause).Safe := by
  rintro _ _ ⟨⟩
  exact h

theorem safe_andThen {result : Except RunError α} {go : α → Outcome} (h : Machine.Safe result)
    (goes : ∀ a, result = .ok a → (go a).Safe) : (s.andThen result go).Safe := by
  cases result with
  | ok a => exact goes a rfl
  | error cause => exact safe_fail s (h cause rfl)

end Outcome

theorem safe_load {source : Operand} (frames : s.returns ≠ [])
    (enough : source.takes ≤ s.values.items.length) : Safe (s.load source) := by
  cases source with
  | pop =>
    rw [State.load, State.pop, Stack.pop?]
    cases hs : s.values.items with
    | nil => simp [hs, Operand.takes] at enough
    | cons v rest => exact .ok _
  | slot name =>
    cases hf : s.frames with
    | nil => exact absurd (by rw [State.returns, hf, List.map_nil]) frames
    | cons frame rest =>
      simp only [State.load, hf]
      cases lookup name frame.slots with
      | some v => exact .ok _
      | none => exact .error id
  | literal text =>
    rw [State.load]
    cases Value.ofLiteral? text with
    | some v => exact .ok _
    | none => exact .error id

theorem safe_store {target : Target} {v : Value} (frames : s.returns ≠ []) :
    Safe (s.store v target) := by
  cases target with
  | push => exact .ok _
  | slot name =>
    cases hf : s.frames with
    | nil => exact absurd (by rw [State.returns, hf, List.map_nil]) frames
    | cons frame rest =>
      rw [State.store, hf]
      exact .ok _

theorem safe_mismatch {result : Except Mismatch α} : Safe (result.mapError .typeMismatch) := by
  cases result with
  | ok a => exact .ok a
  | error cause => exact .error id

theorem safe_jump {l : Label} : (s.jump code l).Safe := by
  rw [State.jump]
  cases labelPosition? code l with
  | some position => exact Outcome.safe_running _
  | none => exact Outcome.safe_fail s id

/-- An instruction that finds a frame and the values that it takes may fail for other reasons only. -/
theorem safe_execute {i : Instruction} (frames : s.returns ≠ [])
    (enough : i.takes ≤ s.values.items.length) : (s.execute code i).Safe := by
  cases i with
  | comment text | label l => exact Outcome.safe_running _
  | mov target source =>
    refine Outcome.safe_andThen ?_ fun t _ => Outcome.safe_running _
    refine (safe_load frames enough).bind ?_
    rintro ⟨v, t⟩ hload
    exact safe_store ((exchanges_load hload).1.returns ▸ frames)
  | unary op source target =>
    refine Outcome.safe_andThen ?_ fun t _ => Outcome.safe_running _
    refine (safe_load frames enough).bind ?_
    rintro ⟨v, t⟩ hload
    refine safe_mismatch.bind fun w _ => ?_
    exact safe_store ((exchanges_load hload).1.returns ▸ frames)
  | binary op first second target =>
    refine Outcome.safe_andThen ?_ fun t _ => Outcome.safe_running _
    have both : first.takes + second.takes ≤ s.values.items.length := enough
    refine (safe_load frames (by omega)).bind ?_
    rintro ⟨right, t⟩ hright
    have right := (exchanges_load hright).1
    have framesRight : t.returns ≠ [] := right.returns ▸ frames
    have rest : second.takes ≤ t.values.items.length := by
      have := right.length
      omega
    refine (safe_load framesRight rest).bind ?_
    rintro ⟨left, u⟩ hleft
    refine safe_mismatch.bind fun w _ => ?_
    exact safe_store ((exchanges_load hleft).1.returns ▸ framesRight)
  | jump l => exact safe_jump
  | jumpFalse l condition =>
    refine Outcome.safe_andThen (safe_load frames enough) ?_
    rintro ⟨v, t⟩ -
    dsimp only
    split
    · exact Outcome.safe_running _
    · exact safe_jump
  | call l =>
    rw [State.execute, State.call]
    cases labelPosition? code l with
    | some position => exact Outcome.safe_running _
    | none => exact Outcome.safe_fail s id
  | out =>
    simp only [State.execute, State.leave]
    split
    · exact Outcome.safe_running _
    · cases hv : s.values.items with
      | nil => simp [Instruction.takes, hv] at enough
      | cons v rest =>
        simp only [State.pop, Stack.pop?, hv]
        rintro _ _ ⟨⟩
  | print count =>
    rw [State.execute, State.print, Stack.popMany_of_le (show count ≤ _ from enough)]
    exact Outcome.safe_running _
  | read count =>
    rw [State.execute, State.read, Stack.popMany_of_le (show count ≤ _ from enough)]
    dsimp only
    split
    · exact Outcome.safe_running _
    · exact Outcome.safe_fail _ id
  | unknown arity => exact Outcome.safe_fail s id

end

variable {p : Program} {s t : State}

theorem not_atEnding_label {position : Nat} {l : Label}
    (h : (Assembly.ofProgram p)[position]? = some (.label l)) : ¬ AtEnding p position := by
  rintro ⟨f, -, hf⟩
  cases h.symm.trans hf

theorem not_atEnding_behind (returns : ∀ f ∈ p.functions, f.EndsInReturn) {position : Nat}
    {i : Instruction} (h : (Assembly.ofProgram p)[position]? = some i) (hi : i ≠ .out) :
    ¬ AtEnding p (position + 1) := by
  rintro ⟨f, -, hf⟩
  obtain ⟨before, hposition, hout⟩ := out_before_ending returns hf ⟨f, rfl⟩
  obtain rfl := Nat.succ.inj hposition
  exact hi (Option.some.inj (h.symm.trans hout))

/-- Control never gets to the end of a function, since it does not get behind a return. -/
theorem not_atEnding_step (returns : ∀ f ∈ p.functions, f.EndsInReturn)
    (framed : s.Framed (Assembly.ofProgram p)) (hs : step (Assembly.ofProgram p) s = .running t) :
    ¬ AtEnding p t.position := by
  obtain ⟨l, hl⟩ | ⟨k, i, hk, hi, notOut⟩ := framed.comes hs
  · exact not_atEnding_label hl
  · exact hk ▸ not_atEnding_behind returns hi notOut

/-- No step of a whole run leads below the call of the entry function. -/
theorem base_inFunction (p : Program) : Base p (InFunction p) (fun _ => False) [none] := by
  intro position height inside _ hend
  obtain ⟨e, he, ok, next⟩ := inside.entry hend
  exact ⟨e, he, ok, next, fun _ => ⟨fun _ hd => hd, by simp⟩⟩

/-- The entry function is one that starts with its arguments on the stack, as all of them do. -/
theorem inFunction_entry (hp : Proper p (.program p)) (linked : Linked p (Assembly.ofProgram p))
    {position : Nat} (h : entry? (Assembly.ofProgram p) = some position) :
    ∃ f l, p.main? = some f ∧ InFunction p position f.params.length ∧
      (Assembly.ofProgram p)[position]? = some (.label l) := by
  obtain ⟨f, hf, named, found⟩ := linked.exists_main h
  obtain ⟨g, hg, inside⟩ := inFunction_callee hp linked found
  cases named.symm.trans hg
  exact ⟨f, _, hf, inside, getElem?_of_labelPosition? found⟩

/-- There is an instruction to execute, with a frame and all the values that it takes. -/
structure Sustained (p : Program) (s : State) : Prop where
  framed : s.Framed (Assembly.ofProgram p)
  balanced : ∃ behind, Balanced p (InFunction p) [] [none] behind s
  inside : ¬ AtEnding p s.position

namespace Sustained

theorem start (hp : Proper p (.program p)) (linked : Linked p (Assembly.ofProgram p))
    (returns : ∀ f ∈ p.functions, f.EndsInReturn)
    (entry : ∀ f, p.main? = some f → f.params = []) {console : Console}
    (h : Machine.start (Assembly.ofProgram p) console = .running s) : Sustained p s := by
  unfold Machine.start at h
  split at h
  · next position hposition =>
    cases h
    obtain ⟨f, l, hf, inside, label⟩ := inFunction_entry hp linked hposition
    rw [entry f hf, List.length_nil] at inside
    obtain ⟨e, he, ok, next⟩ := inside.entry (not_atEnding_label label)
    have instruction : e.instruction = .label l :=
      Option.some.inj ((getElem?_ofProgram he).symm.trans label)
    have fair := ok.fair
    rw [Entry.Fair, instruction] at fair
    have nothing : e.after 0 = 0 := by
      rw [Entry.after, ← fair.1, Nat.le_zero.mp ok.enough]
    rw [nothing] at next
    exact ⟨⟨[], rfl, by simp⟩, ⟨0, [], 0, 0, 0, [], .base next, rfl, rfl, rfl, rfl⟩,
      not_atEnding_behind returns label (by simp)⟩
  · cases h

theorem step (hp : Proper p (.program p)) (linked : Linked p (Assembly.ofProgram p))
    (returns : ∀ f ∈ p.functions, f.EndsInReturn) (h : Sustained p s)
    (hs : Machine.step (Assembly.ofProgram p) s = .running t) : Sustained p t := by
  obtain ⟨behind, balanced⟩ := h.balanced
  have next := balanced.step hp linked (base_inFunction p) (fun _ => id) h.inside hs
  exact ⟨h.framed.step hs, ⟨_, next⟩, not_atEnding_step returns h.framed hs⟩

theorem enough (h : Sustained p s) : ∃ i, (Assembly.ofProgram p)[s.position]? = some i ∧
    i.takes ≤ s.values.items.length := by
  obtain ⟨behind, returns, counted, pending, left, top, chain, -, values, length, -⟩ := h.balanced
  obtain ⟨e, height, others, he, ok, total, -⟩ :=
    chain.entry (base_inFunction p) (fun _ => id) h.inside
  refine ⟨e.instruction, getElem?_ofProgram he, ?_⟩
  rw [values, List.append_nil, length, total]
  by_cases hcall : ∃ l, e.instruction = .call l
  · obtain ⟨l, hl⟩ := hcall
    rw [hl]
    exact Nat.zero_le _
  · have := (ok.fair.balance fun l hl => hcall ⟨l, hl⟩).1
    have := ok.enough
    omega

theorem safe_step (h : Sustained p s) : (Machine.step (Assembly.ofProgram p) s).Safe := by
  obtain ⟨i, hi, enough⟩ := h.enough
  rw [Machine.step, hi]
  refine safe_execute (fun none => h.framed.frames_ne_nil ?_) enough
  exact List.map_eq_nil_iff.mp none

end Sustained

/-- A run of a program whose functions all return may go on for ever or fail, but never because
something is not there: a value, a frame or an instruction. -/
theorem run_safe {source : String} {built : Built} (h : replay source = .ok built)
    (regular : (Node.program built.program).Every (Node.Regular built.program))
    (returns : ∀ f ∈ built.program.functions, f.EndsInReturn)
    (entry : ∀ f, built.program.main? = some f → f.params = []) (console : Console) (steps : Nat) :
    (resume (Assembly.ofProgram built.program) steps
      (start (Assembly.ofProgram built.program) console)).Safe := by
  have values := replay_every (kept_hasValues _) h
  have proper : Proper built.program (.program built.program) :=
    fun m hm => ⟨regular m hm, values m hm⟩
  have linked := linked_ofProgram (replay_ids_nodup h)
  intro cause console' run
  obtain atStart | ⟨before, s, reached, failed⟩ := resume_eq_halted run
  · unfold start at atStart
    split at atStart
    · cases atStart
    · cases atStart
      exact id
  · have sustained := resume_induction (fun hs => hs.step proper linked returns) reached
      fun s hs => Sustained.start proper linked returns entry hs
    exact sustained.safe_step cause console' failed

theorem run_safe_sample : (Node.program sampleProgram).Every (Node.Regular sampleProgram) ∧
    (∀ f ∈ sampleProgram.functions, f.EndsInReturn) ∧
    (∀ f, sampleProgram.main? = some f → f.params = []) ∧ ∀ console steps,
      (resume (Assembly.ofProgram sampleProgram) steps
        (start (Assembly.ofProgram sampleProgram) console)).Safe := by
  have returns : ∀ f ∈ sampleProgram.functions, f.EndsInReturn := by
    simp only [sampleProgram, List.forall_mem_cons]
    exact ⟨⟨_, _, rfl, rfl⟩, ⟨_, _, rfl, rfl⟩, by simp⟩
  have entry : ∀ f, sampleProgram.main? = some f → f.params = [] := by
    intro f hf
    cases hf
    rfl
  exact ⟨sample_regular, returns, entry, run_safe replay_sample sample_regular returns entry⟩

end StackCompiler.Machine
