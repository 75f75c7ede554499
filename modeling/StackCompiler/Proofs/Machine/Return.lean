import StackCompiler.Proofs.Machine.Frames

/-!
What a call leaves of the caller. Whatever the code is, a frame that a call has made is closed by
one return, and until then only variables of this frame and of frames above it change. So control
comes back behind the call to the frames that were there before it.
-/

namespace StackCompiler.Machine

open Assembly (Code Instruction Operand Target)

variable {code : Code} {s t u : State} {returnTo : Option Nat} {below : List Frame}

/-- The innermost frame returns there, and these frames are below it. -/
def State.On (returnTo : Option Nat) (below : List Frame) (s : State) : Prop :=
  ∃ slots, s.frames = ⟨returnTo, slots⟩ :: below

/-- What is found has the property, or else there was a frame all the same. -/
def Finds {α : Type} (P : α → Prop) : Except RunError α → Prop
  | .ok a => P a
  | .error cause => cause ≠ .noFrame

/-- The run goes on with the same frames below the innermost one, or has not stopped for want of a
frame. -/
def Outcome.On (returnTo : Option Nat) (below : List Frame) : Outcome → Prop
  | running s => s.On returnTo below
  | halted result _ => result ≠ .error .noFrame

theorem Finds.bind {α β : Type} {P : α → Prop} {Q : β → Prop} {result : Except RunError α}
    {f : α → Except RunError β} (h : Finds P result) (next : ∀ a, P a → Finds Q (f a)) :
    Finds Q (result >>= f) := by
  cases result with
  | ok a => exact next a h
  | error cause => exact h

theorem Finds.andThen {α : Type} {P : α → Prop} {result : Except RunError α} {go : α → Outcome}
    (h : Finds P result) (next : ∀ a, P a → (go a).On returnTo below) :
    (s.andThen result go).On returnTo below := by
  cases result with
  | ok a => exact next a h
  | error cause => exact fun failed => h (Except.error.inj failed)

theorem finds_mapError {result : Except Mismatch Value} :
    Finds (fun _ => True) (result.mapError RunError.typeMismatch) := by
  cases result with
  | ok v => trivial
  | error cause => rintro ⟨⟩

theorem finds_load (h : s.On returnTo below) (source : Operand) :
    Finds (fun r => r.2.On returnTo below) (s.load source) := by
  obtain ⟨slots, frames⟩ := h
  cases source with
  | pop =>
    simp only [State.load, State.pop]
    cases s.values.pop? with
    | none => rintro ⟨⟩
    | some taken => exact ⟨slots, frames⟩
  | slot name =>
    simp only [State.load, frames]
    cases lookup name slots with
    | none => rintro ⟨⟩
    | some v => exact ⟨slots, frames⟩
  | literal text =>
    simp only [State.load]
    cases Value.ofLiteral? text with
    | none => rintro ⟨⟩
    | some v => exact ⟨slots, frames⟩

theorem finds_store (h : s.On returnTo below) (v : Value) (target : Target) :
    Finds (State.On returnTo below) (s.store v target) := by
  obtain ⟨slots, frames⟩ := h
  cases target with
  | push => exact ⟨slots, frames⟩
  | slot name =>
    simp only [State.store, frames]
    exact ⟨_, rfl⟩

theorem on_jump (h : s.On returnTo below) (l : Label) : (s.jump code l).On returnTo below := by
  rw [State.jump]
  cases labelPosition? code l with
  | none => rintro ⟨⟩
  | some position => exact h

/-- An instruction that neither calls nor returns sees nothing of the frames below the innermost
one. -/
theorem execute_on (code : Code) (h : s.On returnTo below) {i : Instruction}
    (hi : i.isLocal = true) : (s.execute code i).On returnTo below := by
  cases i with
  | comment text | label l => exact h
  | mov target source =>
    refine Finds.andThen ?_ fun t ht => ht
    exact (finds_load h source).bind fun r hr => finds_store hr r.1 target
  | unary op source target =>
    refine Finds.andThen ?_ fun t ht => ht
    refine (finds_load h source).bind fun r hr => ?_
    exact finds_mapError.bind fun v _ => finds_store hr v target
  | binary op first second target =>
    refine Finds.andThen ?_ fun t ht => ht
    refine (finds_load h first).bind fun right hright => ?_
    refine (finds_load hright second).bind fun left hleft => ?_
    exact finds_mapError.bind fun v _ => finds_store hleft v target
  | jump l => exact on_jump h l
  | jumpFalse l condition =>
    refine (finds_load h condition).andThen fun r hr => ?_
    dsimp only
    split
    · exact hr
    · exact on_jump hr l
  | call l | out => cases hi
  | print count =>
    simp only [State.execute, State.print]
    split
    · exact h
    · rintro ⟨⟩
  | read count =>
    simp only [State.execute, State.read]
    split
    · split
      · exact h
      · rintro ⟨⟩
    · rintro ⟨⟩
  | unknown arity => rintro ⟨⟩

theorem frames_call {l : Label} (h : s.execute code (.call l) = .running t) :
    t.frames = ⟨some (s.position + 1), []⟩ :: s.frames := by
  simp only [State.execute, State.call] at h
  split at h
  · cases h
    rfl
  · cases h

theorem frames_out (h : s.execute code .out = .running t) :
    ∃ slots, s.frames = ⟨some t.position, slots⟩ :: t.frames := by
  simp only [State.execute, State.leave] at h
  split at h
  · next position slots rest frames =>
    cases h
    exact ⟨slots, frames⟩
  · split at h <;> cases h

/-- With a frame there is none missing. -/
theorem step_ne_noFrame (h : s.frames ≠ []) (console : Console) :
    step code s ≠ .halted (.error .noFrame) console := by
  obtain ⟨⟨returnTo, slots⟩, below, frames⟩ := List.exists_cons_of_ne_nil h
  unfold step
  split
  · next i _ =>
    by_cases stays : i.isLocal = true
    · have top := execute_on code ⟨slots, frames⟩ stays
      intro failed
      rw [failed] at top
      exact top rfl
    cases i with
    | call l =>
      simp only [State.execute, State.call]
      split <;> rintro ⟨⟩
    | out =>
      simp only [State.execute, State.leave, State.pop]
      cases returnTo with
      | some position => simp [frames]
      | none =>
        cases s.values.pop? <;> simp [frames, State.fail]
    | _ => exact absurd rfl stays
  · rintro ⟨⟩

/-- The frame of the call is there, maybe with frames of further calls on top. -/
def State.Over (returnTo : Nat) (below : List Frame) (s : State) : Prop :=
  ∃ inner slots, s.frames = inner ++ ⟨some returnTo, slots⟩ :: below

/-- As long as there are more frames than the call found, its own one is among them, and those that
it found are the same. -/
theorem State.Over.step {back : Nat} (h : s.Over back below) (hs : Machine.step code s = .running t)
    (deep : below.length < t.frames.length) : t.Over back below := by
  obtain ⟨i, -, executed⟩ := step_eq_running hs
  obtain ⟨inner, slots, frames⟩ := h
  by_cases stays : i.isLocal = true
  · cases inner with
    | nil =>
      have top := execute_on code ⟨slots, frames⟩ stays
      rw [executed] at top
      obtain ⟨slots', frames'⟩ := top
      exact ⟨[], slots', frames'⟩
    | cons frame inner =>
      have top := execute_on code ⟨frame.slots, frames⟩ stays
      rw [executed] at top
      obtain ⟨slots', frames'⟩ := top
      exact ⟨⟨frame.returnTo, slots'⟩ :: inner, slots, frames'⟩
  cases i with
  | call l =>
    have frames' := frames_call executed
    exact ⟨_ :: inner, slots, by rw [frames', frames]; rfl⟩
  | out =>
    obtain ⟨old, frames'⟩ := frames_out executed
    rw [frames] at frames'
    cases inner with
    | nil =>
      obtain ⟨-, rfl⟩ := List.cons.inj frames'
      exact absurd deep (Nat.lt_irrefl _)
    | cons frame inner =>
      obtain ⟨-, rest⟩ := List.cons.inj frames'
      exact ⟨inner, slots, rest.symm⟩
  | _ => exact absurd rfl stays

/-- So many steps lead from behind the call that `s` executes to the return that `u` executes. Up to
it there are more frames than before the call, so that it is the frame of the call that it closes.
-/
structure Matches (code : Code) (s : State) (steps : Nat) (u : State) : Prop where
  call : ∃ l, code[s.position]? = some (.call l)
  run : resume code (steps + 1) (.running s) = .running u
  deep : ∀ k ≤ steps, ∀ v, resume code (k + 1) (.running s) = .running v →
    s.frames.length < v.frames.length
  out : code[u.position]? = some .out
  last : u.frames.length = s.frames.length + 1

theorem resume_one (code : Code) (s : State) : resume code 1 (.running s) = step code s := by
  rw [resume]
  cases step code s <;> rfl

theorem resume_succ_eq_running {steps : Nat} {o : Outcome}
    (h : resume code (steps + 1) o = .running t) :
    ∃ v, resume code steps o = .running v ∧ step code v = .running t := by
  rw [resume_add] at h
  cases hv : resume code steps o with
  | halted result console =>
    rw [hv] at h
    cases h
  | running v =>
    rw [hv, resume_one] at h
    exact ⟨v, rfl, h⟩

/-- Up to the return that matches a call, the frame of the call is there. -/
theorem Matches.over {steps : Nat} (h : Matches code s steps u) :
    u.Over (s.position + 1) s.frames := by
  obtain ⟨⟨l, call⟩, run, deep, -, -⟩ := h
  induction steps generalizing u with
  | zero =>
    have executed : s.execute code (.call l) = .running u := by
      rw [← run, resume_one, step, call]
    exact ⟨[], [], frames_call executed⟩
  | succ steps ih =>
    obtain ⟨v, before, last⟩ := resume_succ_eq_running run
    exact (ih before fun k hk => deep k (by omega)).step last (deep _ (Nat.le_refl _) u run)

/-- The return goes back behind the call, to the frames of the caller as they were. -/
theorem Matches.returns {steps : Nat} (h : Matches code s steps u) :
    step code u = .running { u with position := s.position + 1, frames := s.frames } := by
  obtain ⟨inner, slots, frames⟩ := h.over
  have single : inner = [] := by
    have length := h.last
    rw [frames, List.length_append, List.length_cons] at length
    exact List.length_eq_zero_iff.mp (by omega)
  subst single
  rw [step, h.out]
  simp only [State.execute, State.leave, frames, List.nil_append]

/-- Whatever the code and the input are, in every state that a run reaches there are frames, of
which the lowest one has nowhere to return to and every other one returns behind a call, so that no
instruction fails for want of a frame. And when the call that the state executes is matched by a
return, control comes back behind the call and all frames are as they were before it. -/
theorem calls_return {console : Console} {steps : Nat}
    (reached : resume code steps (start code console) = .running s) :
    s.frames ≠ [] ∧
      (∃ calls : List Nat,
        s.frames.map Frame.returnTo = calls.map (fun k => some (k + 1)) ++ [none] ∧
          ∀ k ∈ calls, ∃ l, code[k]? = some (.call l)) ∧
      (∀ final, step code s ≠ .halted (.error .noFrame) final) ∧
      ∀ n u, Matches code s n u →
        step code u = .running { u with position := s.position + 1, frames := s.frames } := by
  have framed := framed_resume reached
  exact ⟨framed.frames_ne_nil, framed, step_ne_noFrame framed.frames_ne_nil,
    fun n u matched => matched.returns⟩

/-- A function that calls itself once, with a variable of the caller's name. -/
def recursiveCode : Code := [
  .label (.forFunction "main"), .mov (.slot "v") (.literal "'kept'"),
  .mov .push (.literal "'again'"), .call (.forFunction "f"), .out,
  .label (.forFunction "f"), .mov (.slot "v") .pop,
  .jumpFalse (.forNode "Exit" .loop none) (.slot "v"), .mov .push (.literal "''"),
  .call (.forFunction "f"), .out,
  .label (.forNode "Exit" .loop none), .mov .push (.slot "v"), .out]

def isDeeper : Outcome → Bool
  | .running s => 1 < s.frames.length
  | .halted _ _ => true

/-- The first call is matched by the second return. -/
theorem calls_return_recursive : ∃ s u,
    resume recursiveCode 2 (start recursiveCode {}) = .running s ∧ Matches recursiveCode s 11 u ∧
      step recursiveCode u = .running { u with position := 4, frames := s.frames } := by
  obtain ⟨s, reached⟩ : ∃ s, resume recursiveCode 2 (start recursiveCode {}) = .running s :=
    ⟨_, rfl⟩
  obtain ⟨u, run⟩ : ∃ u, resume recursiveCode 12 (.running s) = .running u := by
    cases reached
    exact ⟨_, rfl⟩
  have deeper : ∀ k ≤ 11, isDeeper (resume recursiveCode (k + 1) (.running s)) = true := by
    cases reached
    decide +kernel
  have matched : Matches recursiveCode s 11 u := by
    refine ⟨⟨.forFunction "f", ?_⟩, run, fun k hk v hv => ?_, ?_, ?_⟩
    · cases reached
      rfl
    · have more := deeper k hk
      rw [hv] at more
      have one : s.frames.length = 1 := by
        cases reached
        rfl
      rw [one]
      exact of_decide_eq_true more
    · cases reached
      cases run
      rfl
    · cases reached
      cases run
      rfl
  refine ⟨s, u, reached, matched, ?_⟩
  have back := (calls_return reached).2.2.2 11 u matched
  have position : s.position = 3 := by
    cases reached
    rfl
  rw [position] at back
  exact back

end StackCompiler.Machine
