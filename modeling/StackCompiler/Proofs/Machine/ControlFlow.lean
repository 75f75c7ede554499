import StackCompiler.Proofs.Assembly.Territory
import StackCompiler.Proofs.Machine.Frames
import StackCompiler.Proofs.Script.Exits

/-!
Where control is while calls are not finished. A run that is in a call executes the code of the
first function declared under the name that was called, and it comes into the code of another
function only by a call of it and back only by a return.
-/

namespace StackCompiler.Machine

open Assembly Script

/-- The labels of the calls that are not finished after the instruction, the innermost first. -/
def openCalls (calls : List Label) : Instruction → List Label
  | .call l => l :: calls
  | .out => calls.tail
  | _ => calls

/-- The labels of the calls that are not finished after so many steps. Frames have no names, so that
the names that were called are read off the instructions that the run executes. -/
def openCallsAfter (code : Code) : Nat → Outcome → List Label → List Label
  | steps + 1, .running s, calls =>
    openCallsAfter code steps (step code s) ((code[s.position]?.map (openCalls calls)).getD calls)
  | _, _, calls => calls

/-- The position is in the first function declared under the name that the label tells. -/
def RunsAs (p : Program) (called : Label) (position : Nat) : Prop :=
  ∃ name index, called = .forFunction name ∧
    p.functions.findIdx? (·.name == name) = some index ∧
      functionAt? p.functions position = some index

/-- How control passes on. A call leads into the function that it names, a return behind the call by
which the function was called, and any other instruction to a place of the same function. -/
def Passes (p : Program) (calls : List Label) (s t : State) : Instruction → Prop
  | .call l => t.returns = some (s.position + 1) :: s.returns ∧ RunsAs p l t.position
  | .out => ∃ called caller rest before, calls = called :: caller :: rest ∧
      s.returns = some t.position :: t.returns ∧ t.position = before + 1 ∧
        (Assembly.ofProgram p)[before]? = some (.call called) ∧ RunsAs p caller t.position
  | _ => t.returns = s.returns ∧
      functionAt? p.functions t.position = functionAt? p.functions s.position

/-- The calls that are not finished and where each of them is. The lowest one is that of the main
function; every other one is of the function that the instruction before its return address
calls. -/
inductive Nest (p : Program) : Nat → List (Option Nat) → List Label → Prop where
  | main {f : Function} {index position : Nat} (hmain : p.main? = some f)
      (first : p.functions.findIdx? (·.name == f.name) = some index)
      (inside : Inside p index position) : Nest p position [none] [f.label]
  | call {name : String} {index position before : Nat} {returns : List (Option Nat)}
      {calls : List Label} (first : p.functions.findIdx? (·.name == name) = some index)
      (inside : Inside p index position)
      (called : (Assembly.ofProgram p)[before]? = some (.call (.forFunction name)))
      (below : Nest p (before + 1) returns calls) :
      Nest p position (some (before + 1) :: returns) (.forFunction name :: calls)

/-- What keeps control in the function that it is in. -/
structure Confined (p : Program) : Prop where
  linked : Linked p (Assembly.ofProgram p)
  aims : (Node.program p).Follows Scope.Aims {}
  returns : ∀ f ∈ p.functions, f.EndsInReturn

variable {p : Program} {position : Nat} {returns : List (Option Nat)} {calls : List Label}
  {s t : State} {i : Instruction}

namespace Nest

/-- The innermost call may be anywhere in its function. -/
theorem place (h : Nest p position returns calls) : ∃ called rest name index,
    calls = called :: rest ∧ called = .forFunction name ∧
      p.functions.findIdx? (·.name == name) = some index ∧ Inside p index position ∧
        ∀ {position'}, Inside p index position' → Nest p position' returns calls := by
  cases h with
  | main hmain first inside =>
    exact ⟨_, _, _, _, rfl, rfl, first, inside, fun inside' => .main hmain first inside'⟩
  | call first inside called below =>
    exact ⟨_, _, _, _, rfl, rfl, first, inside, fun inside' => .call first inside' called below⟩

theorem runsAs (h : Nest p position returns calls) :
    ∃ called rest, calls = called :: rest ∧ RunsAs p called position := by
  obtain ⟨called, rest, name, index, hcalls, hcalled, first, inside, -⟩ := h.place
  exact ⟨called, rest, hcalls, name, index, hcalled, first, inside.functionAt?⟩

theorem length (h : Nest p position returns calls) : returns.length = calls.length := by
  induction h with
  | main => rfl
  | call first inside called below ih => rw [List.length_cons, List.length_cons, ih]

/-- At the bottom is the main function. -/
theorem exists_main (h : Nest p position returns calls) :
    ∃ f, p.main? = some f ∧ calls.getLast? = some f.label := by
  induction h with
  | main hmain => exact ⟨_, hmain, rfl⟩
  | @call _ _ _ _ _ calls _ _ _ below ih =>
    obtain ⟨f, hmain, last⟩ := ih
    refine ⟨f, hmain, ?_⟩
    cases calls with
    | nil => cases last
    | cons l calls => rwa [List.getLast?_cons_cons]

/-- An instruction that neither calls nor returns keeps control where it is. -/
theorem stays (confined : Confined p) (h : Nest p s.position s.returns calls)
    (hi : (Assembly.ofProgram p)[s.position]? = some i) (stays : i.isLocal = true)
    (executed : s.execute (Assembly.ofProgram p) i = .running t) :
    Nest p t.position t.returns calls ∧ t.returns = s.returns ∧
      functionAt? p.functions t.position = functionAt? p.functions s.position := by
  obtain ⟨called, rest, name, index, -, -, -, inside, moves⟩ := h.place
  obtain ⟨exchanges, continues⟩ := execute_local stays executed
  have inside' : Inside p index t.position := by
    obtain next | ⟨l, hl, found⟩ := continues
    · have notOut : i ≠ .out := by
        rintro rfl
        cases stays
      rw [next]
      exact inside.next confined.returns hi notOut
    · exact inside.jump confined.linked confined.aims hi hl found
  refine ⟨?_, exchanges.returns, ?_⟩
  · rw [exchanges.returns]
    exact moves inside'
  · rw [inside'.functionAt?, inside.functionAt?]

/-- A call leads to the label of the function, and it will be returned from behind the call. -/
theorem enters (confined : Confined p) (h : Nest p s.position s.returns calls) {l : Label}
    (hi : (Assembly.ofProgram p)[s.position]? = some (.call l))
    (executed : s.execute (Assembly.ofProgram p) (.call l) = .running t) :
    Nest p t.position t.returns (l :: calls) ∧
      t.returns = some (s.position + 1) :: s.returns ∧ RunsAs p l t.position := by
  obtain ⟨name, rfl⟩ := exists_forFunction_of_call (List.mem_of_getElem? hi)
  obtain ⟨_, _, _, index, -, -, -, inside, moves⟩ := h.place
  obtain ⟨found, -, frames⟩ := execute_call executed
  obtain ⟨callee, first, entered⟩ := inside_callee confined.linked found
  have behind := moves (inside.next confined.returns hi (by simp))
  refine ⟨?_, frames, name, callee, rfl, first, entered.functionAt?⟩
  rw [frames]
  exact .call first entered hi behind

/-- A return leads behind the call by which the function was called. -/
theorem leaves (h : Nest p s.position s.returns calls)
    (executed : s.execute (Assembly.ofProgram p) .out = .running t) :
    Nest p t.position t.returns calls.tail ∧ Passes p calls s t .out := by
  have frames := (execute_out executed).1
  generalize hr : s.returns = returns at h
  cases h with
  | main => cases hr.symm.trans frames
  | @call name _ _ before returns rest first inside called below =>
    rw [hr, List.cons.injEq, Option.some.injEq] at frames
    obtain ⟨position, rfl⟩ := frames
    obtain ⟨caller, callers, rfl, runs⟩ := below.runsAs
    rw [position] at below runs
    have frame : s.returns = some t.position :: t.returns := by rw [hr, position]
    exact ⟨below, _, caller, callers, before, rfl, frame, position.symm, called, runs⟩

/-- One step of a run keeps the calls that are not finished in their functions. -/
theorem step (confined : Confined p) (h : Nest p s.position s.returns calls)
    (hi : (Assembly.ofProgram p)[s.position]? = some i)
    (executed : s.execute (Assembly.ofProgram p) i = .running t) :
    Nest p t.position t.returns (openCalls calls i) ∧ Passes p calls s t i := by
  cases i with
  | call l => exact h.enters confined hi executed
  | out => exact h.leaves executed
  | _ => exact h.stays confined hi rfl executed

/-- Whatever a run does, the calls that are not finished are in their functions. -/
theorem run (confined : Confined p) {steps : Nat} (h : Nest p s.position s.returns calls)
    (hs : resume (Assembly.ofProgram p) steps (.running s) = .running t) :
    Nest p t.position t.returns
      (openCallsAfter (Assembly.ofProgram p) steps (.running s) calls) := by
  induction steps generalizing s calls with
  | zero =>
    cases hs
    exact h
  | succ steps ih =>
    rw [resume] at hs
    rw [openCallsAfter]
    cases hu : Machine.step (Assembly.ofProgram p) s with
    | halted result console =>
      rw [hu] at hs
      cases steps <;> cases hs
    | running u =>
      rw [hu] at hs
      obtain ⟨i, hi, executed⟩ := step_eq_running hu
      have next := (h.step confined hi executed).1
      rw [hi]
      exact ih next hs

/-- A run begins behind the label of the main function. -/
theorem start (confined : Confined p) {console : Console}
    (h : Machine.start (Assembly.ofProgram p) console = .running s) :
    ∃ f, p.main? = some f ∧ Nest p s.position s.returns [f.label] := by
  unfold Machine.start at h
  split at h
  · next position entry =>
    cases h
    obtain ⟨f, hmain, -, found⟩ := confined.linked.exists_main entry
    obtain ⟨index, first, inside⟩ := inside_callee confined.linked found
    have label := getElem?_of_labelPosition? found
    exact ⟨f, hmain, .main hmain first (inside.next confined.returns label (by simp))⟩
  · cases h

end Nest

/-- Control stays in the function that was called. For a script that does not rewind and builds a
program whose functions all return at their ends, every instruction that a run executes is one of
the first function declared under the name by which the innermost frame was called, which for the
lowest frame is the main function; and control passes into another function by calls and returns
only. -/
theorem runs_in_called {source : String} {built : Built} (h : replay source = .ok built)
    (noRewind : ∀ l ∈ lines source, l.action ≠ "rewind")
    (returns : ∀ f ∈ built.program.functions, f.EndsInReturn) {console : Console} {steps : Nat}
    {s : State} (reached : resume (Assembly.ofProgram built.program) steps
      (start (Assembly.ofProgram built.program) console) = .running s) :
    ∃ main called callers, built.program.main? = some main ∧
      openCallsAfter (Assembly.ofProgram built.program) steps
        (start (Assembly.ofProgram built.program) console) [main.label] = called :: callers ∧
      s.frames.length = callers.length + 1 ∧ (callers = [] → called = main.label) ∧
      RunsAs built.program called s.position ∧
      ∀ i t, (Assembly.ofProgram built.program)[s.position]? = some i →
        s.execute (Assembly.ofProgram built.program) i = .running t →
          Passes built.program (called :: callers) s t i := by
  obtain ⟨st, replays⟩ := replay_eq_ok h
  have confined : Confined built.program :=
    ⟨linked_ofProgram replays.numbered.1, replays.follows noRewind, returns⟩
  cases hstart : start (Assembly.ofProgram built.program) console with
  | halted result console =>
    rw [hstart] at reached
    cases steps <;> cases reached
  | running s₀ =>
    rw [hstart] at reached
    obtain ⟨main, hmain, begin⟩ := Nest.start confined hstart
    have nest := begin.run confined reached
    obtain ⟨called, callers, hcalls, runs⟩ := nest.runsAs
    rw [hcalls] at nest
    refine ⟨main, called, callers, hmain, hcalls, ?_, ?_, runs, ?_⟩
    · have length := nest.length
      rwa [State.returns, List.length_map] at length
    · rintro rfl
      obtain ⟨f, hf, last⟩ := nest.exists_main
      cases hf.symm.trans hmain
      exact Option.some.inj last
    · intro i t hi executed
      exact (nest.step confined hi executed).2

/-- A function that was called while an operand waited is at work. -/
theorem runs_in_called_sample : (∀ l ∈ lines sampleSource, l.action ≠ "rewind") ∧
    (∀ f ∈ sampleProgram.functions, f.EndsInReturn) ∧
    ∃ s, resume (Assembly.ofProgram sampleProgram) 6
      (start (Assembly.ofProgram sampleProgram) {}) = .running s ∧
        s.frames.length = 2 ∧ RunsAs sampleProgram (.forFunction "inc") s.position := by
  have noRewind : ∀ l ∈ lines sampleSource, l.action ≠ "rewind" := by
    unfold lines sampleSource
    simp only [String.toList_append]
    decide +kernel
  have returns : ∀ f ∈ sampleProgram.functions, f.EndsInReturn := by
    simp only [sampleProgram, List.forall_mem_cons]
    exact ⟨⟨_, _, rfl, rfl⟩, ⟨_, _, rfl, rfl⟩, by simp⟩
  obtain ⟨s, reached⟩ : ∃ s, resume (Assembly.ofProgram sampleProgram) 6
      (start (Assembly.ofProgram sampleProgram) {}) = .running s := ⟨_, rfl⟩
  obtain ⟨main, called, callers, hmain, hcalls, depth, -, runs, -⟩ :=
    runs_in_called replay_sample noRewind returns reached
  cases hmain
  have unfinished : openCallsAfter (Assembly.ofProgram sampleProgram) 6
      (start (Assembly.ofProgram sampleProgram) {}) [.forFunction "main"] =
        [.forFunction "inc", .forFunction "main"] := rfl
  obtain ⟨rfl, rfl⟩ := List.cons.inj (hcalls.symm.trans unfinished)
  exact ⟨noRewind, returns, s, reached, depth, runs⟩

end StackCompiler.Machine
