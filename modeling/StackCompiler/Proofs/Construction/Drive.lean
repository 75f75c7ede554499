import StackCompiler.Proofs.Construction.Refusal
import StackCompiler.Proofs.Tree.Scope

/-!
A construction that is driven by a caller who makes no mistakes. As long as no waypoint is pending,
each action changes the open nodes just as it says, reports nothing, and gives back what it should.
-/

namespace StackCompiler

/-- What a caller asks for next. -/
inductive Cue where
  | act (action : Action)
  /-- Pops the finished expression and begins a case with it. -/
  | caseOfTop

namespace Construction

def heed (s : Construction) : Cue → Except BuildFailure Construction
  | .act action =>
    match s.perform action with
    | (.failure cause, _) => .error cause
    | (_, s) => .ok s
  | .caseOfTop =>
    match s.perform .popExpression with
    | (.expression e, s) => .ok (s.perform (.beginCase e)).2
    | (_, s) => .ok s

/-- The first failure ends the construction. -/
def drive (s : Construction) (cues : List Cue) : Except BuildFailure Construction :=
  cues.foldlM heed s

theorem closeExpression_of_kind {e : Expression} {items : List Node}
    (h : items.head?.map Node.kind ≠ some .expression) :
    closeExpression e items = .expression e :: items := by
  unfold closeExpression
  split
  · exact absurd rfl h
  · rfl

/-- No waypoint is pending, and no failure has ended the construction. -/
structure Free (s : Construction) : Prop where
  marks : s.nodes.marks.items = []
  alive : s.aborted = false

theorem Free.rewind {s : Construction} (h : s.Free) : s.rewind = (.ok [], s) := by
  rw [Construction.rewind, Trail.rewind_of_marks_eq_nil h.marks]
  exact if_neg (by simp [h.alive])

/-- The same construction with other open nodes and another next number. -/
def standing (s : Construction) (items : List Node) (k : Nat) : Construction :=
  { s.withItems items with nextId := k }

theorem Free.standing {s : Construction} (h : s.Free) (items : List Node) (k : Nat) :
    (s.standing items k).Free := ⟨h.marks, h.alive⟩

end Construction

/-- The cues lead from these open nodes to those, whatever was reported before, and report nothing
themselves. -/
def Drives (cues : List Cue) (items : List Node) (k : Nat) (items' : List Node) (k' : Nat) : Prop :=
  ∀ s : Construction, s.Free → (s.standing items k).drive cues = .ok (s.standing items' k')

namespace Drives

variable {cues cues' : List Cue} {items items' items'' : List Node} {k k' k'' : Nat}

theorem nil : Drives [] items k items k := fun _ _ => rfl

theorem append (h : Drives cues items k items' k') (h' : Drives cues' items' k' items'' k'') :
    Drives (cues ++ cues') items k items'' k'' := by
  intro s hs
  rw [Construction.drive, List.foldlM_append, ← Construction.drive, h s hs]
  exact h' s hs

theorem cons {cue : Cue} (h : Drives [cue] items k items' k')
    (h' : Drives cues items' k' items'' k'') : Drives (cue :: cues) items k items'' k'' :=
  append h h'

theorem of_perform {action : Action}
    (h : ∀ s : Construction, s.Free →
      (s.standing items k).perform action = (.nothing, s.standing items' k')) :
    Drives [.act action] items k items' k' := by
  intro s hs
  simp only [Construction.drive, List.foldlM_cons, List.foldlM_nil, Construction.heed, h s hs]
  rfl

theorem start (o : Opening) : Drives [.act (.start o)] items k (o.node k :: items) (k + 1) :=
  of_perform fun _ _ => rfl

theorem startExit (exit : ExitKind) {target : Nat}
    (h : (Scope.ofOpen items).target exit = some target) :
    Drives [.act (.startExit exit)] items k (exit.node k (some target) :: items)
      (k + 1) := by
  refine of_perform fun s _ => ?_
  rw [Scope.target_ofOpen] at h
  have found : ((s.standing items k).items.find? (·.kind == exit.left)).map Node.id =
      some target := h
  rw [Construction.perform_startExit, Construction.openExit, found]
  rfl

theorem name {n n' : Node} {text : String} (h : Construction.renamed? text n = some n') :
    Drives [.act (.name text)] (n :: items) k (n' :: items) k := by
  refine of_perform fun s _ => ?_
  have top : (s.standing (n :: items) k).items = n :: items := rfl
  simp only [Construction.perform, Construction.setName, top, h]
  rfl

theorem parameters (f : Function) (params : List String) :
    Drives (params.map fun x => .act (.parameter x)) (.function f :: items) k
      (.function { f with params := f.params ++ params } :: items) k := by
  induction params generalizing f with
  | nil => simpa using nil
  | cons x params ih =>
    have one : Drives [.act (.parameter x)] (.function f :: items) k
        (.function { f with params := f.params ++ [x] } :: items) k := of_perform fun _ _ => rfl
    simpa using one.cons (ih { f with params := f.params ++ [x] })

section

variable {e v : Expression} {i : Identifier} {c : Call} {b : Block} {w : Switch} {p : SwitchCase}

theorem literalLeaf (text : String) : Drives [.act (.literal text)] (.expression e :: items) k
    (.expression (e.append [.leaf (Construction.literalLeaf k text)]) :: items) (k + 1) :=
  of_perform fun _ _ => rfl

theorem literal {text : String} (h : text.toList.head? ≠ some '_') :
    Drives [.act (.literal text)] (.expression e :: items) k
      (.expression (e.append [.leaf (.constant ⟨k, text⟩)]) :: items) (k + 1) := by
  have leaf : Construction.literalLeaf k text = .constant ⟨k, text⟩ := if_neg h
  exact leaf ▸ literalLeaf text

theorem operator (symbol : String) (unary : Bool) :
    Drives [.act (.operator symbol unary)] (.expression e :: items) k
      (.expression (e.append [.ofSymbol symbol unary]) :: items) k := of_perform fun _ _ => rfl

theorem identifierToken : Drives [.act .identifierToken] (.identifier i :: .expression e :: items) k
    (.expression (e.append [.leaf (.identifier i)]) :: items) k := of_perform fun _ _ => rfl

theorem callToken : Drives [.act .callToken] (.call c :: .expression e :: items) k
    (.expression (e.append [.leaf (.call c)]) :: items) k := of_perform fun _ _ => rfl

theorem identifierToCall : Drives [.act .identifierToCall] (.identifier i :: items) k
    (.call ⟨k, i.name, []⟩ :: items) (k + 1) := of_perform fun _ _ => rfl

/-- An expression on top of another one becomes part of that. -/
theorem close : Drives [.act .endExpression] (.expression e :: items) k
    (Construction.closeExpression e items) k := by
  refine of_perform fun s hs => ?_
  have rewound := (hs.standing (.expression e :: items) k).rewind
  have top : (s.standing (.expression e :: items) k).items = .expression e :: items := rfl
  have same : e.append [] = e := by cases e; simp [Expression.append]
  simp only [Construction.perform, Construction.endExpression_eq, rewound, List.find?_nil, top,
    List.flatMap_nil, same]
  rfl

theorem endExpression (h : (items.head?.map Node.kind) ≠ some .expression) :
    Drives [.act .endExpression] (.expression e :: items) k (.expression e :: items) k :=
  Construction.closeExpression_of_kind h ▸ close

theorem attach {parent child n : Node} (h : parent.place child = some n) :
    Drives [.act .attach] (child :: parent :: items) k (n :: items) k := by
  refine of_perform fun s _ => ?_
  have top : (s.standing (child :: parent :: items) k).items = child :: parent :: items := rfl
  simp only [Construction.perform, Construction.attach_eq, top, h]
  rfl

theorem firstValue : Drives [.caseOfTop] (.expression v :: .switch w :: items) k
    (.switchCase (.first k v) :: .switch w :: items) (k + 1) := fun _ _ => rfl

theorem nextValue : Drives [.caseOfTop] (.expression v :: .switchCase p :: items) k
    (.switchCase { p with values := p.values ++ [v] } :: items) k := fun _ _ => rfl

theorem announceDefault : Drives [.act .announceDefault] (.switch w :: items) k
    (.switch { w with fallbackSeen := true } :: items) k := of_perform fun _ _ => rfl

theorem endCase (h : w.fallbackSeen = false) :
    Drives [.act .endCase] (.block b :: .switchCase p :: .switch w :: items) k
      (.switch { w with cases := w.cases ++ [{ p with body := some b }] } :: items) k := by
  obtain ⟨id, scrutinee, cases, fallback, seen⟩ := w
  cases h
  exact of_perform fun _ _ => rfl

theorem endDefault (h : w.fallbackSeen = true) (hw : w.fallback = none) :
    Drives [.act .endCase] (.block b :: .switch w :: items) k
      (.switch { w with fallback := some b } :: items) k := by
  obtain ⟨id, scrutinee, cases, fallback, seen⟩ := w
  cases h
  cases hw
  exact of_perform fun _ _ => rfl

end

end Drives

end StackCompiler
