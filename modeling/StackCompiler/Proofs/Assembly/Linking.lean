import StackCompiler.Machine.Run
import StackCompiler.Proofs.Assembly.Labels

/-!
Where a jump or a call goes. The labels of a node tell its number, and a number belongs to one node
only, so that a jump finds the place that its node means; a call finds the first function of its
name.
-/

namespace StackCompiler

namespace Label

/-- A label of some node and not of a function. -/
def IsLocal (l : Label) : Prop := ∀ name, l ≠ forFunction name

theorem forFunction_injective {name name' : String} (h : forFunction name = forFunction name') :
    name = name' := by
  have names := congrArg (fun l => l.name.toList) h
  simp only [forFunction, String.toList_append, List.append_cancel_left_eq] at names
  exact String.toList_injective names

end Label

namespace Node

theorem elseLabel_isLocal (c : Conditional) : c.elseLabel.IsLocal :=
  Label.forNode_ne_forFunction (by decide) (by decide) _ _

theorem exitLabel_isLocal (kind : NodeKind) (node : Option Nat) :
    (Label.forNode "Exit" kind node).IsLocal :=
  Label.forNode_ne_forFunction (by decide) (by decide) _ _

theorem conditionLabel_isLocal (l : Loop) : l.conditionLabel.IsLocal :=
  Label.forNode_ne_forFunction (by decide) (by decide) _ _

theorem skipLabel_isLocal (c : SwitchCase) : c.skipLabel.IsLocal :=
  Label.forNode_ne_forFunction (by decide) (by decide) _ _

/-- A node is no function and no program, and so are all nodes below it. -/
def isInner : Node → Bool
  | program _ | function _ => false
  | _ => true

theorem isInner_children {n c : Node} (h : n.isInner) (hc : c ∈ n.children) : c.isInner := by
  have expressions {es : List Expression} (hc : c ∈ es.map expression) : c.isInner := by
    obtain ⟨e, -, rfl⟩ := List.mem_map.mp hc
    rfl
  have blocks {bs : List Block} (hc : c ∈ bs.map block) : c.isInner := by
    obtain ⟨b, -, rfl⟩ := List.mem_map.mp hc
    rfl
  cases n with
  | program p | function f => cases h
  | block b =>
    obtain ⟨s, -, rfl⟩ := List.mem_map.mp hc
    cases s <;> rfl
  | assignment a => exact expressions hc
  | ret r => exact expressions hc
  | switchExit e | loopExit e | identifier i => cases hc
  | loop l => exact (List.mem_append.mp hc).elim expressions blocks
  | conditional k => exact (List.mem_append.mp hc).elim expressions blocks
  | switch s =>
    obtain hc | hc := List.mem_append.mp hc
    · obtain hc | hc := List.mem_append.mp hc
      · exact expressions hc
      · obtain ⟨k, -, rfl⟩ := List.mem_map.mp hc
        rfl
    · exact blocks hc
  | switchCase k => exact (List.mem_append.mp hc).elim expressions blocks
  | expression e =>
    obtain ⟨t, -, ht⟩ := List.mem_filterMap.mp hc
    cases t with
    | leaf l => cases l <;> cases ht <;> rfl
    | _ => cases ht
  | call k => exact expressions hc

theorem isInner_subtree {n m : Node} (h : n.isInner) (hm : m ∈ n.subtree) : m.isInner := by
  induction n using Node.induction with
  | step n ih =>
    rw [subtree_eq, List.mem_cons, List.mem_flatMap] at hm
    obtain rfl | ⟨c, hc, hm⟩ := hm
    · exact h
    · exact ih c hc (isInner_children h hc) hm

/-- The labels of inner nodes tell the node's number. -/
theorem eq_forNode_of_mem_ownLabels {n : Node} {l : Label} (h : l ∈ n.ownLabels)
    (hl : l.IsLocal) : ∃ purpose kind, l = .forNode purpose kind (some n.id) := by
  cases n with
  | function f => exact absurd (List.mem_singleton.mp h) (hl f.name)
  | conditional c =>
    obtain rfl | rfl := by simpa [ownLabels] using h
    · exact ⟨_, _, rfl⟩
    · exact ⟨_, _, rfl⟩
  | loop w =>
    obtain rfl | rfl := by simpa [ownLabels] using h
    · exact ⟨_, _, rfl⟩
    · exact ⟨_, _, rfl⟩
  | switch s => exact ⟨_, _, List.mem_singleton.mp h⟩
  | switchCase c => exact ⟨_, _, List.mem_singleton.mp h⟩
  | _ => cases h

theorem isLocal_of_mem_ownLabels {n : Node} {l : Label} (hn : n.isInner) (h : l ∈ n.ownLabels) :
    l.IsLocal := by
  cases n with
  | program p | function f => cases hn
  | conditional c =>
    obtain rfl | rfl := by simpa [ownLabels] using h
    · exact elseLabel_isLocal c
    · exact exitLabel_isLocal _ _
  | loop w =>
    obtain rfl | rfl := by simpa [ownLabels] using h
    · exact conditionLabel_isLocal w
    · exact exitLabel_isLocal _ _
  | switch s => exact List.mem_singleton.mp h ▸ exitLabel_isLocal _ _
  | switchCase c => exact List.mem_singleton.mp h ▸ skipLabel_isLocal c
  | _ => cases h

theorem ownLabels_nodup (n : Node) : n.ownLabels.Nodup := by
  cases n with
  | conditional c => simp [ownLabels, Conditional.elseLabel, Conditional.exitLabel, Label.forNode]
  | loop w => simp [ownLabels, Loop.conditionLabel, Loop.exitLabel, Label.forNode]
  | _ => simp [ownLabels]

/-- Different nodes have different labels, functions apart. -/
theorem count_ownLabels_le_one {ns : List Node} {l : Label} (hn : (ns.map Node.id).Nodup)
    (hl : l.IsLocal) : (ns.flatMap ownLabels).count l ≤ 1 := by
  induction ns with
  | nil => simp
  | cons n ns ih =>
    rw [List.map_cons, List.nodup_cons] at hn
    rw [List.flatMap_cons, List.count_append]
    have own := List.nodup_iff_count.mp n.ownLabels_nodup l
    have rest := ih hn.2
    by_cases hmem : l ∈ n.ownLabels
    · obtain ⟨purpose, kind, hi⟩ := eq_forNode_of_mem_ownLabels hmem hl
      have absent : l ∉ ns.flatMap ownLabels := by
        intro hm
        obtain ⟨m, hm, hlm⟩ := List.mem_flatMap.mp hm
        obtain ⟨purpose', kind', hj⟩ := eq_forNode_of_mem_ownLabels hlm hl
        have same := Label.forNode_id_eq (hi.symm.trans hj)
        exact hn.1 (List.mem_map.mpr ⟨m, hm, same.symm⟩)
      have := List.count_eq_zero_of_not_mem absent
      omega
    · have := List.count_eq_zero_of_not_mem hmem
      omega

end Node

namespace Assembly

/-- Nothing before the position defines the label. -/
theorem labelPosition?_eq {code : Code} {position : Nat} {l : Label}
    (h : code[position]? = some (.label l)) (before : l ∉ labels (code.take position)) :
    Machine.labelPosition? code l = some position := by
  obtain ⟨hlt, hc⟩ := List.getElem?_eq_some_iff.mp h
  rw [Machine.labelPosition?, List.findIdx?_eq_some_iff_getElem]
  refine ⟨hlt, by simp [hc], fun j hj bad => before ?_⟩
  have found : (code.take position)[j]? = some (.label l) := by
    rw [List.getElem?_take_of_lt hj, List.getElem?_eq_getElem (by omega)]
    simpa using bad
  exact List.mem_filterMap.mpr ⟨_, List.mem_of_getElem? found, rfl⟩

theorem labelPosition?_of_count {code : Code} {position : Nat} {l : Label}
    (h : code[position]? = some (.label l)) (once : (labels code).count l ≤ 1) :
    Machine.labelPosition? code l = some position := by
  apply labelPosition?_eq h
  intro before
  have here : l ∈ labels (code.drop position) := by
    obtain ⟨hlt, hc⟩ := List.getElem?_eq_some_iff.mp h
    rw [List.drop_eq_getElem_cons hlt, hc]
    exact List.mem_cons_self
  have twice : (labels code).count l =
      (labels (code.take position)).count l + (labels (code.drop position)).count l := by
    rw [← List.count_append, ← labels_append, List.take_append_drop]
  have := List.count_pos_iff.mpr before
  have := List.count_pos_iff.mpr here
  omega

/-- Jumps and calls in the code of a program go where they are meant to go. -/
structure Linked (p : Program) (code : Code) : Prop where
  node : ∀ {position l}, code[position]? = some (.label l) → l.IsLocal →
    Machine.labelPosition? code l = some position
  function : ∀ {name f}, p.function? name = some f → ∃ position,
    CodeAt code position (Assembly.function f) ∧
      Machine.labelPosition? code (.forFunction name) = some (position + 1)
  missing : ∀ {name}, p.function? name = none →
    Machine.labelPosition? code (.forFunction name) = none

theorem forFunction_not_mem_labels_body (b : Option Block) (name : String) :
    .forFunction name ∉ labels (body b) := by
  rw [body_eq, labels_flatMap]
  intro h
  obtain ⟨b, -, h⟩ := List.mem_flatMap.mp h
  have inTree : .forFunction name ∈ (Node.block b).collect Node.ownLabels := by
    rw [← List.count_pos_iff, ← Node.count_labels (.block b) none (.forFunction name)]
    exact List.count_pos_iff.mpr h
  obtain ⟨m, hm, hl⟩ := List.mem_flatMap.mp inTree
  have inner := Node.isInner_subtree (n := .block b) rfl hm
  exact absurd rfl (Node.isLocal_of_mem_ownLabels inner hl name)

/-- A function is the only place where its label can be defined. -/
theorem eq_of_forFunction_mem {f : Function} {name : String}
    (h : .forFunction name ∈ labels (Assembly.function f)) : name = f.name := by
  rw [Node.labels_function, List.mem_cons] at h
  exact Label.forFunction_injective
    (h.resolve_right (forFunction_not_mem_labels_body f.body name))

/-- A call finds the first function of its name. -/
theorem labelPosition?_forFunction {p : Program} {name : String} {f : Function}
    (hf : p.function? name = some f) : ∃ before after, p.functions = before ++ f :: after ∧
      (∀ g ∈ before, g.name ≠ name) ∧ Machine.labelPosition? (ofProgram p) (.forFunction name) =
        some ((ofProgram ⟨p.id, before⟩).length + 1) := by
  obtain ⟨hname, before, after, hp, hb⟩ := List.find?_eq_some_iff_append.mp hf
  simp only [beq_iff_eq] at hname
  subst hname
  refine ⟨before, after, hp, fun g hg => by simpa using hb g hg, labelPosition?_eq ?_ ?_⟩
  · simp [ofProgram, hp, Assembly.function, Function.label]
  · have split : ofProgram p =
        ofProgram ⟨p.id, before⟩ ++ (Assembly.function f ++ ofProgram ⟨p.id, after⟩) := by
      simp [ofProgram, hp]
    rw [split, List.take_length_add_append]
    intro bad
    rw [labels_append, List.mem_append] at bad
    obtain bad | bad := bad
    · rw [ofProgram, labels_flatMap] at bad
      obtain ⟨g, hg, bad⟩ := List.mem_flatMap.mp bad
      have := hb g hg
      simp [eq_of_forFunction_mem bad] at this
    · simp [Assembly.function, Instruction.label?] at bad

theorem linked_ofProgram {p : Program} (h : (Node.program p).ids.Nodup) :
    Linked p (ofProgram p) where
  node := by
    intro position l hpos hl
    apply labelPosition?_of_count hpos
    have tree := Node.count_labels (.program p) none l l
    rw [Node.code] at tree
    rw [tree]
    exact Node.count_ownLabels_le_one (Node.nodup_map_id h) hl
  function := by
    intro name f hf
    obtain ⟨before, after, hp, -, position⟩ := labelPosition?_forFunction hf
    refine ⟨_, ?_, position⟩
    rw [ofProgram, hp]
    exact codeAt_flatMap before f after
  missing := by
    intro name hn
    rw [Machine.labelPosition?, List.findIdx?_eq_none_iff]
    intro i hi
    by_contra bad
    simp only [beq_iff_eq, Bool.not_eq_false] at bad
    have defined : .forFunction name ∈ labels (ofProgram p) :=
      List.mem_filterMap.mpr ⟨i, hi, by rw [bad]; rfl⟩
    rw [ofProgram, labels_flatMap] at defined
    obtain ⟨f, hf, hl⟩ := List.mem_flatMap.mp defined
    have := List.find?_eq_none.mp hn f hf
    simp [eq_of_forFunction_mem hl] at this

/-- A run begins at the label of the main function. -/
theorem Linked.exists_main {p : Program} {code : Code} (linked : Linked p code) {position : Nat}
    (h : Machine.entry? code = some position) : ∃ f, p.main? = some f ∧
      p.function? f.name = some f ∧ Machine.labelPosition? code f.label = some position := by
  obtain first | ⟨absent, second⟩ := Option.or_eq_some_iff.mp h
  · cases hf : p.function? "_main_" with
    | none => cases (linked.missing hf).symm.trans first
    | some f =>
      have name := (Program.function?_eq_some hf).1
      refine ⟨f, by rw [Program.main?, hf]; rfl, by rw [name, hf], ?_⟩
      rw [Function.label, name, first]
  · cases hf : p.function? "main" with
    | none => cases (linked.missing hf).symm.trans second
    | some f =>
      have name := (Program.function?_eq_some hf).1
      have none : p.function? "_main_" = none := by
        by_contra some
        obtain ⟨g, hg⟩ := Option.ne_none_iff_exists'.mp some
        obtain ⟨position, -, found⟩ := linked.function hg
        cases absent.symm.trans found
      refine ⟨f, by rw [Program.main?, none, hf]; rfl, by rw [name, hf], ?_⟩
      rw [Function.label, name, second]

end Assembly

end StackCompiler
