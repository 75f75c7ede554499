import StackCompiler.Proofs.Construction.Invariant
import StackCompiler.Proofs.Script.Retention

/-!
Fields are filled in their order, at every stage of a script and in every node that is open, held or
below such a node.
-/

namespace StackCompiler

/-- A later field is filled only if the ones before it are. A case has a value as soon as it is
open, and a body as soon as it belongs to its switch. -/
def Node.InOrder : Node → Prop
  | switchCase c => c.values ≠ []
  | switch w => (∀ c ∈ w.cases, c.values ≠ [] ∧ c.body.isSome) ∧
      (w.fallback.isSome → w.fallbackSeen = true)
  | conditional c => c.elseBlock.isSome → c.thenBlock.isSome
  | loop l => (l.stop.isSome → l.start.isSome) ∧ (l.increment.isSome → l.stop.isSome)
  | _ => True

/-- The field that is filled is the first one that is free. -/
theorem Node.inOrder_place {parent child n : Node} (h : parent.place child = some n)
    (hp : parent.InOrder) : n.InOrder := by
  cases parent with
  | conditional c =>
    cases child with
    | expression e =>
      simp only [place] at h
      split at h <;> cases h
      exact hp
    | block b =>
      simp only [place] at h
      split at h <;> cases h
      · exact fun _ => rfl
      · exact fun _ => by simp [*]
    | _ => cases h
  | loop l =>
    cases child with
    | expression e =>
      simp only [place] at h
      split at h <;> cases h
      · exact ⟨fun _ => rfl, hp.2⟩
      · exact ⟨fun _ => by simp [*], fun _ => rfl⟩
      · exact ⟨hp.1, fun _ => by simp [*]⟩
    | block b =>
      simp only [place] at h
      split at h <;> cases h
      exact hp
    | _ => cases h
  | switch w =>
    cases child with
    | expression e =>
      simp only [place] at h
      split at h <;> cases h
      exact hp
    | _ => cases h
  | switchCase c => cases h
  | _ =>
    have kind := (place_same h).1
    cases n <;> trivial

theorem kept_inOrder (allowed : String → Prop) : Kept allowed Node.InOrder where
  start o k := by
    cases o <;>
      simp [Opening.node, Node.InOrder, Loop.empty, Conditional.empty, Switch.empty]
  exit exit _ _ := by cases exit <;> trivial
  rename {_ n _} _ hn h := by cases n <;> cases hn <;> exact h
  parameter _ _ := trivial
  literal _ _ := trivial
  named _ := trivial
  symbol _ _ := trivial
  tokens _ _ _ := trivial
  call _ := trivial
  place hn hp _ := Node.inOrder_place hn hp
  announced h := ⟨h.1, fun _ => rfl⟩
  fallback _ hs _ h := ⟨h.1, fun _ => hs⟩
  caseBody _ hc := hc
  case {w c} hb hc h := by
    refine ⟨fun d hd => ?_, h.2⟩
    obtain hd | hd := List.mem_append.mp hd
    · exact h.1 d hd
    · exact List.mem_singleton.mp hd ▸ ⟨hc, hb⟩
  firstValue _ := List.cons_ne_nil _ _
  nextValue _ _ := by simp [Node.InOrder]

namespace Script

/-- However far a script has come, and whatever actions it has misused, rewinds included: each case
of a switch has a value and a body, a switch has no default that was not announced, a conditional no
else part without a then part, and a loop neither an end without a start nor a step without an
end. -/
theorem filled_in_order {source : String} {n : Nat} {st : State}
    (run : ((lines source).take n).foldlM State.line {} = .ok st) :
    ∀ root ∈ st.construction.items ++ st.held, ∀ m ∈ root.subtree, m.InOrder := by
  have moves : Moves (.any fun _ => True) {} st.stock :=
    moves_lines (fun l _ d hd => within_of_texts hd (fun _ => trivial) (fun _ _ => trivial) trivial)
      run
  exact (kept_inOrder _).moves moves

/-- The case has just joined its switch, after both were taken away and put back. -/
def heldJoined : State where
  construction :=
    { nextId := 14
      nodes := ⟨⟨[
        .switch ⟨3, some ⟨4, [.leaf (.constant ⟨5, "1"⟩)]⟩,
          [⟨8, [⟨6, [.leaf (.constant ⟨7, "2"⟩)]⟩],
            some ⟨10, [.ret ⟨11, some ⟨12, [.leaf (.constant ⟨13, "3"⟩)]⟩⟩]⟩⟩], none, false⟩,
        .block ⟨2, [.switchExit ⟨9, none⟩]⟩, .function { id := 1, name := "main" },
        .program { id := 0 }]⟩, {}⟩
      diagnostics := heldDiagnostics }

set_option maxRecDepth 10000 in
theorem filled_in_order_held :
    ((lines heldSource).take 20).foldlM State.line {} = .ok heldJoined ∧
      ∀ root ∈ heldJoined.construction.items ++ heldJoined.held, ∀ m ∈ root.subtree, m.InOrder := by
  have run : ((lines heldSource).take 20).foldlM State.line {} = .ok heldJoined := by
    unfold lines heldSource
    simp only [String.toList_append]
    rfl
  exact ⟨run, filled_in_order run⟩

end Script

end StackCompiler
