import StackCompiler.Proofs.Construction.Identity
import StackCompiler.Proofs.Construction.Invariant
import StackCompiler.Proofs.Script.Moves

/-!
What holds of the program of any script that replays, however its lines misuse the actions.
-/

namespace StackCompiler

/-- A case has something to compare with. -/
def Node.HasValues : Node → Prop
  | switchCase c => c.values ≠ []
  | _ => True

/-- A case opens with its first value and never loses one. -/
theorem kept_hasValues (allowed : String → Prop) : Kept allowed Node.HasValues where
  start o k := by cases o <;> trivial
  exit exit _ _ := by cases exit <;> trivial
  rename {_ n _} _ hn _ := by cases n <;> cases hn <;> trivial
  parameter _ _ := trivial
  literal _ _ := trivial
  named _ := trivial
  symbol _ _ := trivial
  tokens _ _ _ := trivial
  call _ := trivial
  place {_ _ n} hn _ _ := by
    cases n with
    | switchCase c => exact (Node.place_switchCase hn).elim
    | _ => trivial
  announced _ := trivial
  fallback _ _ _ _ := trivial
  caseBody _ hc := hc
  case _ _ _ := trivial
  firstValue _ := List.cons_ne_nil _ _
  nextValue _ _ := by simp [Node.HasValues]

namespace Script

variable {source : String} {built : Built}

variable {st : State}

/-- Whatever a script does, its program comes about by moves. -/
theorem Replays.moves_any (h : Replays source st built) :
    Moves (.any (Written (· ≠ '\n'))) {} st.stock :=
  h.moves rfl (fun _ => trivial) trivial

theorem Replays.numbered (h : Replays source st built) :
    (Node.program built.program).ids.Nodup ∧
      ∀ i ∈ (Node.program built.program).ids, i < st.construction.nextId := by
  have numbered := h.moves_any.numbered
  rw [h.stock] at numbered
  have all : (Node.program built.program).ids.Sublist
      (Stock.ids ⟨[.program built.program], st.held, st.construction.nextId⟩) := by
    simp [Stock.ids]
  exact ⟨numbered.nodup.sublist all, fun i hi => numbered.below i (all.subset hi)⟩

theorem replay_ids_nodup (h : replay source = .ok built) :
    (Node.program built.program).ids.Nodup := by
  obtain ⟨st, replays⟩ := replay_eq_ok h
  exact replays.numbered.1

theorem replay_every {P : Node → Prop} (kept : Kept (Written (· ≠ '\n')) P)
    (h : replay source = .ok built) : (Node.program built.program).Every P := by
  obtain ⟨st, replays⟩ := replay_eq_ok h
  have every := kept.moves replays.moves_any
  rw [replays.stock] at every
  exact every _ List.mem_cons_self

/-- One function that calls another one while an operand waits. -/
def sampleSource : String :=
  "begin-program\n" ++
  "begin-function\nname inc\nparam _x\nbegin-block\nbegin-return\nexpr _x + 1\n" ++
  "attach\nattach\nattach\nattach\n" ++
  "begin-function\nname main\nbegin-block\nbegin-return\nbegin-expression\n" ++
  "literal 10\noperator -\nbegin-identifier\nname inc\nidentifier-to-call\n" ++
  "expr 2\nattach\ncall\nend-expression\n" ++
  "attach\nattach\nattach\nattach\n"

def sampleProgram : Program where
  id := 0
  functions := [
    { id := 1
      name := "inc"
      params := ["_x"]
      body := some ⟨2, [.ret ⟨3, some ⟨4, [.leaf (.identifier ⟨5, "_x"⟩), .operator .add,
        .leaf (.constant ⟨6, "1"⟩)]⟩⟩]⟩ },
    { id := 7
      name := "main"
      body := some ⟨8, [.ret ⟨9, some ⟨10, [.leaf (.constant ⟨11, "10"⟩), .operator .subtract,
        .leaf (.call ⟨13, "inc", [⟨14, [.leaf (.constant ⟨15, "2"⟩)]⟩]⟩)]⟩⟩]⟩ }]

set_option maxRecDepth 10000 in
theorem replay_sample : replay sampleSource = .ok ⟨sampleProgram, []⟩ := by
  unfold replay lines sampleSource
  rw [String.toList_append, String.toList_append, String.toList_append,
    String.toList_append, String.toList_append, String.toList_append]
  rfl

/-- Exits with and without something to leave, an action that fits nowhere, tokens spliced into an
expression, and two functions of one name. -/
def exitSource : String :=
  "begin-program\n" ++ "begin-function\n" ++ "name main\n" ++ "begin-block\n" ++
  "begin-break\n" ++ "attach\n" ++ "end-case\n" ++ "begin-loop\n" ++ "name _i\n" ++ "expr 1\n" ++
  "attach\n" ++ "expr 2\n" ++ "attach\n" ++ "begin-block\n" ++ "begin-switch\n" ++ "expr _i\n" ++
  "attach\n" ++ "case 1\n" ++ "begin-switch-block\n" ++ "begin-break\n" ++ "attach\n" ++
  "begin-loop-exit\n" ++ "attach\n" ++ "end-case\n" ++ "attach\n" ++ "attach\n" ++ "attach\n" ++
  "begin-return\n" ++ "begin-expression\n" ++ "waypoint\n" ++ "begin-identifier\n" ++
  "name _i\n" ++ "end-expression\n" ++ "attach\n" ++ "attach\n" ++ "attach\n" ++ "attach\n" ++
  "begin-function\n" ++ "name main\n" ++ "begin-block\n" ++ "begin-loop-exit\n" ++ "attach\n" ++
  "attach\n" ++ "attach\n"

def exitProgram : Program where
  id := 0
  functions := [
    { id := 1
      name := "main"
      body := some ⟨2, [
        .switchExit ⟨3, none⟩,
        .loop ⟨4, "_i", some ⟨5, [.leaf (.constant ⟨6, "1"⟩)]⟩,
          some ⟨7, [.leaf (.constant ⟨8, "2"⟩)]⟩, none,
          some ⟨9, [.switch ⟨10, some ⟨11, [.leaf (.identifier ⟨12, "_i"⟩)]⟩,
            [⟨15, [⟨13, [.leaf (.constant ⟨14, "1"⟩)]⟩],
              some ⟨16, [.switchExit ⟨17, some 10⟩, .loopExit ⟨18, some 4⟩]⟩⟩], none, false⟩]⟩⟩,
        .ret ⟨19, some ⟨20, [.leaf (.identifier ⟨21, "_i"⟩)]⟩⟩]⟩ },
    { id := 22
      name := "main"
      body := some ⟨23, [.loopExit ⟨24, none⟩]⟩ }]

def exitDiagnostics : List Diagnostic := [
  .missingContext "begin-break" .switch "break",
  .missingContext "end-switch-case" .switch "case body",
  .missingContext "begin-loop-exit" .loop "exit"]

set_option maxRecDepth 10000 in
theorem replay_exit : replay exitSource = .ok ⟨exitProgram, exitDiagnostics⟩ := by
  unfold replay lines exitSource
  simp only [String.toList_append]
  rfl

end Script

end StackCompiler
