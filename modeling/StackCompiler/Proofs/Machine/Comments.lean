import StackCompiler.Proofs.Assembly.Bare
import StackCompiler.Proofs.Machine.Effect

/-!
Code without its comments runs as the code does. Positions differ by the number of comments before
them, in the frames as well, and a comment is a step of its own only where it still stands.
-/

namespace StackCompiler.Machine

open Assembly (Code Instruction Operand Target)
open Assembly.Code

/-- The error that the same instruction gives at its new place. -/
def RunError.bare (code : Code) : RunError → RunError
  | unknownOperator position => unknownOperator (code.barePosition position)
  | cause => cause

def Frame.bare (code : Code) (f : Frame) : Frame :=
  { f with returnTo := f.returnTo.map code.barePosition }

def State.bare (code : Code) (s : State) : State :=
  { s with position := code.barePosition s.position, frames := s.frames.map (Frame.bare code) }

def Outcome.bare (code : Code) : Outcome → Outcome
  | running s => running (s.bare code)
  | halted result console => halted (result.mapError (RunError.bare code)) console

/-- What an operation gives there, if it is an operation on states. -/
def bareResult {α : Type} (code : Code) (f : α → α) (result : Except RunError α) :
    Except RunError α := (result.map f).mapError (RunError.bare code)

variable {code : Code} {s t : State}

theorem bareResult_bind {α β : Type} {f : α → α} {g : β → β} {result : Except RunError α}
    {next next' : α → Except RunError β} (h : ∀ a, result = .ok a →
      next' (f a) = bareResult code g (next a)) :
    (bareResult code f result >>= next') = bareResult code g (result >>= next) := by
  cases result with
  | ok a => exact h a rfl
  | error cause => rfl

theorem andThen_bare {α : Type} {f : α → α} {result : Except RunError α} {go go' : α → Outcome}
    (h : ∀ a, result = .ok a → go' (f a) = (go a).bare code) :
    (s.bare code).andThen (bareResult code f result) go' = (s.andThen result go).bare code := by
  cases result with
  | ok a => exact h a rfl
  | error cause => rfl

theorem load_bare (source : Operand) : (s.bare code).load source =
    bareResult code (fun r => (r.1, r.2.bare code)) (s.load source) := by
  cases source with
  | pop =>
    simp only [State.load, State.pop, State.bare]
    cases s.values.pop? <;> rfl
  | slot name =>
    simp only [State.load, State.bare]
    cases hf : s.frames with
    | nil => rfl
    | cons frame rest =>
      simp only [List.map_cons, Frame.bare]
      cases lookup name frame.slots with
      | none => rfl
      | some v =>
        have frames : s.frames.map (Frame.bare code) =
            frame.bare code :: rest.map (Frame.bare code) := by rw [hf, List.map_cons]
        exact congrArg (fun frames => Except.ok (v, { s.bare code with frames })) frames.symm
  | literal text =>
    simp only [State.load]
    cases Value.ofLiteral? text <;> rfl

theorem store_bare (v : Value) (target : Target) : (s.bare code).store v target =
    bareResult code (State.bare code) (s.store v target) := by
  cases target with
  | push => rfl
  | slot name =>
    simp only [State.store, State.bare]
    cases s.frames <;> rfl

theorem jump_bare (l : Label) : (s.bare code).jump code.bare l = (s.jump code l).bare code := by
  simp only [State.jump, labelPosition?_bare]
  cases labelPosition? code l <;> rfl

theorem checked_bare {result : Except Mismatch Value} {f f' : Value → Except RunError State}
    (h : ∀ v, f' v = bareResult code (State.bare code) (f v)) :
    (result.mapError .typeMismatch >>= f') =
      bareResult code (State.bare code) (result.mapError .typeMismatch >>= f) := by
  cases result with
  | ok v => exact h v
  | error cause => rfl

section

variable {i : Instruction} (hi : code[s.position]? = some i) (plain : i.isComment = false)

include hi plain

theorem next_bare (h : t.position = s.position) : (t.bare code).next = t.next.bare code := by
  simp only [State.next, State.goTo, State.bare, Outcome.bare, h, barePosition_succ hi plain]

/-- Every instruction but a comment does the same at its new place. -/
theorem execute_bare : (s.bare code).execute code.bare i = (s.execute code i).bare code := by
  cases i with
  | comment text => cases plain
  | label l => exact next_bare hi plain rfl
  | mov target source =>
    rw [State.execute, State.execute, load_bare, bareResult_bind (g := State.bare code)]
    · refine andThen_bare fun u hu => ?_
      obtain ⟨r, hload, hstore⟩ := bind_eq_ok hu
      exact next_bare hi plain ((exchanges_store hstore).2.trans (exchanges_load hload).2)
    · exact fun r _ => store_bare r.1 target
  | unary op source target =>
    rw [State.execute, State.execute, load_bare, bareResult_bind (g := State.bare code)]
    · refine andThen_bare fun u hu => ?_
      obtain ⟨r, hload, hu⟩ := bind_eq_ok hu
      obtain ⟨w, -, hstore⟩ := bind_eq_ok hu
      exact next_bare hi plain ((exchanges_store hstore).2.trans (exchanges_load hload).2)
    · exact fun r _ => checked_bare fun w => store_bare w target
  | binary op first second target =>
    rw [State.execute, State.execute, load_bare, bareResult_bind (g := State.bare code)]
    · refine andThen_bare fun u hu => ?_
      obtain ⟨r, hright, hu⟩ := bind_eq_ok hu
      obtain ⟨l, hleft, hu⟩ := bind_eq_ok hu
      obtain ⟨w, -, hstore⟩ := bind_eq_ok hu
      have position := (exchanges_load hleft).2.trans (exchanges_load hright).2
      exact next_bare hi plain ((exchanges_store hstore).2.trans position)
    · intro r _
      dsimp only
      rw [load_bare, bareResult_bind (g := State.bare code)]
      exact fun l _ => checked_bare fun w => store_bare w target
  | jump l => exact jump_bare l
  | jumpFalse l condition =>
    simp only [State.execute, load_bare]
    refine andThen_bare fun r hr => ?_
    dsimp only
    split
    · exact next_bare hi plain (exchanges_load hr).2
    · exact jump_bare l
  | call l =>
    simp only [State.execute, State.call, labelPosition?_bare]
    cases labelPosition? code l with
    | none => rfl
    | some position => simp [Outcome.bare, State.bare, Frame.bare, barePosition_succ hi plain]
  | out =>
    simp only [State.execute, State.leave, State.bare, State.pop]
    cases hf : s.frames with
    | nil => cases s.values.pop? <;> rfl
    | cons frame rest =>
      obtain ⟨returnTo, slots⟩ := frame
      cases returnTo with
      | none => cases s.values.pop? <;> rfl
      | some position => rfl
  | print count =>
    simp only [State.execute, State.print, State.bare]
    cases s.values.popMany count with
    | error cause => rfl
    | ok r =>
      simp only [State.next, State.goTo, Outcome.bare, State.bare, barePosition_succ hi plain]
  | read count =>
    simp only [State.execute, State.read, State.bare]
    cases s.values.popMany count with
    | error cause => rfl
    | ok r =>
      cases hr : s.console.readLine with
      | mk line console =>
        cases line with
        | none => rfl
        | some line =>
          simp only [State.next, State.goTo, State.push, Outcome.bare, State.bare,
            barePosition_succ hi plain]
  | unknown arity => rfl

end

/-- A comment is no step, and anything else is the same step. -/
theorem step_bare (code : Code) (s : State) :
    (∃ text, code[s.position]? = some (.comment text) ∧
        (step code s).bare code = .running (s.bare code)) ∨
      step code.bare (s.bare code) = (step code s).bare code := by
  cases hi : code[s.position]? with
  | none =>
    have here : code.bare[(s.bare code).position]? = none := getElem?_bare_end hi
    right
    simp only [step, hi, here]
    rfl
  | some i =>
    cases plain : i.isComment with
    | true =>
      cases i <;> cases plain
      left
      refine ⟨_, rfl, ?_⟩
      simp only [step, hi, State.execute, State.next, State.goTo, Outcome.bare, State.bare,
        barePosition_comment hi rfl]
    | false =>
      have here : code.bare[(s.bare code).position]? = some i := getElem?_bare hi plain
      right
      simp only [step, hi, here]
      exact execute_bare hi plain

theorem start_bare (code : Code) (console : Console) :
    start code.bare console = (start code console).bare code := by
  have label {l : Label} {position : Nat} (h : labelPosition? code l = some position) :
      code.barePosition (position + 1) = code.barePosition position + 1 :=
    barePosition_succ (getElem?_of_labelPosition? h) rfl
  simp only [start, entry?, labelPosition?_bare]
  cases h : labelPosition? code (.forFunction "_main_") with
  | some position => simp [Outcome.bare, State.bare, Frame.bare, label h]
  | none =>
    cases h' : labelPosition? code (.forFunction "main") with
    | some position => simp [Outcome.bare, State.bare, Frame.bare, label h']
    | none => rfl

/-- Comments are followed by something else or by the end of the code. -/
theorem exists_resume_bare (code : Code) (s : State) : ∃ steps u,
    resume code steps (.running s) = .running u ∧ u.bare code = s.bare code ∧
      step code.bare (u.bare code) = (step code u).bare code := by
  induction left : code.length - s.position generalizing s with
  | zero =>
    obtain ⟨text, hi, -⟩ | same := step_bare code s
    · obtain ⟨hlt, -⟩ := List.getElem?_eq_some_iff.mp hi
      omega
    · exact ⟨0, s, rfl, rfl, same⟩
  | succ left ih =>
    obtain ⟨text, hi, hs⟩ | same := step_bare code s
    · obtain ⟨steps, u, hu, hsame, hstep⟩ := ih { s with position := s.position + 1 } (by
        dsimp only
        omega)
      have next : step code s = .running { s with position := s.position + 1 } := by
        simp only [step, hi]
        rfl
      rw [next, Outcome.bare, Outcome.running.injEq] at hs
      refine ⟨steps + 1, u, ?_, hsame.trans hs, hstep⟩
      rw [resume, next, hu]
    · exact ⟨0, s, rfl, rfl, same⟩

section

variable {steps : Nat} {o : Outcome} {result : Except RunError Value} {console final : Console}

theorem resume_bare (h : resume code steps o = .halted result final) : ∃ steps',
    resume code.bare steps' (o.bare code) = .halted (result.mapError (RunError.bare code)) final := by
  induction steps generalizing o with
  | zero =>
    cases o <;> cases h
    exact ⟨0, rfl⟩
  | succ steps ih =>
    cases o with
    | halted => cases h; exact ⟨0, rfl⟩
    | running s =>
      obtain ⟨steps', hs⟩ := ih (o := step code s) h
      obtain ⟨text, -, same⟩ | same := step_bare code s
      · exact ⟨steps', by rwa [same] at hs⟩
      · exact ⟨steps' + 1, by rwa [← same] at hs⟩

theorem resume_of_bare (h : resume code.bare steps (o.bare code) = .halted result final) :
    ∃ steps' result', resume code steps' o = .halted result' final ∧
      result = result'.mapError (RunError.bare code) := by
  induction steps generalizing o with
  | zero =>
    cases o <;> cases h
    exact ⟨0, _, rfl, rfl⟩
  | succ steps ih =>
    cases o with
    | halted => cases h; exact ⟨0, _, rfl, rfl⟩
    | running s =>
      obtain ⟨before, u, hu, hsame, hstep⟩ := exists_resume_bare code s
      rw [Outcome.bare, ← hsame, resume, hstep] at h
      obtain ⟨after, result', ha, hr⟩ := ih h
      refine ⟨before + (after + 1), result', ?_, hr⟩
      rw [resume_add, hu, resume, ha]

/-- A run of the code on this console ends with the result and leaves the console like that. -/
def Ends (code : Code) (console : Console) (result : Except RunError Value) (final : Console) :
    Prop := ∃ steps, resume code steps (start code console) = .halted result final

theorem Ends.bare (h : Ends code console result final) :
    Ends code.bare console (result.mapError (RunError.bare code)) final := by
  obtain ⟨steps, h⟩ := h
  obtain ⟨steps', h'⟩ := resume_bare h
  exact ⟨steps', by rw [start_bare, h']⟩

theorem Ends.of_bare (h : Ends code.bare console result final) :
    ∃ result', Ends code console result' final ∧ result = result'.mapError (RunError.bare code) := by
  obtain ⟨steps, h⟩ := h
  rw [start_bare] at h
  obtain ⟨steps', result', h', hr⟩ := resume_of_bare h
  exact ⟨result', ⟨steps', h'⟩, hr⟩

end

end StackCompiler.Machine
