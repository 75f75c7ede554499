import StackCompiler.Proofs.Construction.Canonical

/-!
Filling an opened node with the children of a given one, in their order. If the given node is
complete every child finds its place, and the two nodes are the same without their numbers.
-/

namespace StackCompiler

namespace Node

/-- One child after the other goes into the node. -/
def fill (n : Node) (children : List Node) : Option Node := children.foldlM place n

theorem fill_cons (n c : Node) (cs : List Node) :
    n.fill (c :: cs) = (n.place c).bind fun n' => n'.fill cs := List.foldlM_cons

theorem children_fill {n m : Node} {cs : List Node} (h : n.fill cs = some m) :
    m.children.Perm (n.children ++ cs) ∧ m.kind = n.kind ∧ m.id = n.id := by
  induction cs generalizing n with
  | nil =>
    cases h
    simp
  | cons c cs ih =>
    rw [fill_cons] at h
    obtain ⟨n', hn, h⟩ := Option.bind_eq_some_iff.mp h
    obtain ⟨children, kind, id⟩ := ih h
    have same := place_same hn
    refine ⟨?_, kind.trans same.1, id.trans same.2⟩
    have first := (children_place hn).append_right cs
    simpa using children.trans first

/-- A field that takes any number of children takes them in their order. -/
theorem fill_list {α : Type} (wrap : α → Node) (grown : List α → Node)
    (h : ∀ done a, (grown done).place (wrap a) = some (grown (done ++ [a]))) (done as : List α) :
    (grown done).fill (as.map wrap) = some (grown (done ++ as)) := by
  induction as generalizing done with
  | nil => simp [fill]
  | cons a as ih =>
    rw [List.map_cons, fill_cons, h, Option.bind_some, ih]
    simp

/-- Nodes that are those of a list without their numbers come from such a list. -/
theorem exists_map_of_erase {α : Type} {wrap : α → Node} {erased : α → α}
    (inv : ∀ m a, m.erase = (wrap a).erase → ∃ b, m = wrap b ∧ erased b = erased a)
    {as : List α} {ms : List Node} (h : ms.map erase = (as.map wrap).map erase) :
    ∃ bs : List α, ms = bs.map wrap ∧ bs.map erased = as.map erased := by
  induction as generalizing ms with
  | nil => exact ⟨[], by simpa using h, rfl⟩
  | cons a as ih =>
    obtain ⟨m, ms, rfl, hm, hms⟩ := List.map_eq_cons_iff.mp h
    obtain ⟨b, rfl, hb⟩ := inv m a hm
    obtain ⟨bs, rfl, hbs⟩ := ih hms
    exact ⟨b :: bs, rfl, by rw [List.map_cons, List.map_cons, hb, hbs]⟩

theorem place_statement (k : Nat) (done : List Statement) (s : Statement) :
    (block ⟨k, done⟩).place s.node = some (block ⟨k, done ++ [s]⟩) := by
  cases s <;> rfl

theorem fill_opened {n : Node} (h : n.attaches) (complete : n.Complete) (k : Nat) {ms : List Node}
    (hms : ms.map erase = n.children.map erase) :
    ∃ m, (n.opened k).fill ms = some m ∧ m.erase = n.erase := by
  cases n with
  | program p =>
    obtain ⟨fs, rfl, hfs⟩ := exists_map_of_erase (fun _ _ => eq_function_of_erase) hms
    refine ⟨_, fill_list function (fun fs => program ⟨k, fs⟩) (fun _ _ => rfl) [] fs, ?_⟩
    simp [erase, Program.erase, hfs]
  | function f =>
    obtain ⟨b, hb⟩ := Option.isSome_iff_exists.mp complete
    simp only [children, hb, Option.toList_some] at hms
    obtain ⟨bs, rfl, hbs⟩ := exists_map_of_erase (fun _ _ => eq_block_of_erase) hms
    obtain ⟨b', rfl, hb'⟩ := List.map_eq_singleton_iff.mp hbs
    refine ⟨function ⟨k, f.name, f.params, some b'⟩, rfl, ?_⟩
    simp [erase, Function.erase, hb, hb']
  | block b =>
    obtain ⟨ss, rfl, hss⟩ := exists_map_of_erase (fun _ _ => eq_statement_of_erase) hms
    refine ⟨_, fill_list Statement.node (fun ss => block ⟨k, ss⟩) (place_statement k) [] ss, ?_⟩
    simp [erase, Block.erase_eq, hss]
  | assignment a =>
    obtain ⟨e, he⟩ := Option.isSome_iff_exists.mp complete
    simp only [children, he, Option.toList_some] at hms
    obtain ⟨es, rfl, hes⟩ := exists_map_of_erase (fun _ _ => eq_expression_of_erase) hms
    obtain ⟨e', rfl, he'⟩ := List.map_eq_singleton_iff.mp hes
    refine ⟨assignment ⟨k, a.target, some e'⟩, rfl, ?_⟩
    simp [erase, he, he']
  | ret r =>
    cases he : r.value with
    | none =>
      simp only [children, he, Option.toList_none, List.map_nil, List.map_eq_nil_iff] at hms
      subst hms
      exact ⟨_, rfl, by simp [erase, opened, he]⟩
    | some e =>
      simp only [children, he, Option.toList_some] at hms
      obtain ⟨es, rfl, hes⟩ := exists_map_of_erase (fun _ _ => eq_expression_of_erase) hms
      obtain ⟨e', rfl, he'⟩ := List.map_eq_singleton_iff.mp hes
      refine ⟨ret ⟨k, some e'⟩, rfl, ?_⟩
      simp [erase, he, he']
  | loop l =>
    obtain ⟨start, stop, inner⟩ := complete
    obtain ⟨e, he⟩ := Option.isSome_iff_exists.mp start
    obtain ⟨u, hu⟩ := Option.isSome_iff_exists.mp stop
    obtain ⟨b, hb⟩ := Option.isSome_iff_exists.mp inner
    simp only [children, he, hu, hb, Option.toList_some, List.map_append (f := erase)] at hms
    obtain ⟨first, last, rfl, hfirst, hlast⟩ := List.map_eq_append_iff.mp hms
    obtain ⟨es, rfl, hes⟩ := exists_map_of_erase (fun _ _ => eq_expression_of_erase) hfirst
    obtain ⟨bs, rfl, hbs⟩ := exists_map_of_erase (fun _ _ => eq_block_of_erase) hlast
    obtain ⟨b', rfl, hb'⟩ := List.map_eq_singleton_iff.mp hbs
    obtain ⟨e', es, rfl, he', hes⟩ := List.map_eq_cons_iff.mp hes
    obtain ⟨u', es, rfl, hu', hes⟩ := List.map_eq_cons_iff.mp hes
    cases hv : l.increment with
    | none =>
      obtain rfl : es = [] := by simpa [hv] using hes
      refine ⟨loop ⟨k, l.var, some e', some u', none, some b'⟩, rfl, ?_⟩
      simp [erase, Loop.erase_eq, he, hu, hv, hb, he', hu', hb']
    | some v =>
      obtain ⟨v', rfl, hv'⟩ : ∃ v', es = [v'] ∧ v'.erase = v.erase := by
        simpa [hv, List.map_eq_singleton_iff] using hes
      refine ⟨loop ⟨k, l.var, some e', some u', some v', some b'⟩, rfl, ?_⟩
      simp [erase, Loop.erase_eq, he, hu, hv, hb, he', hu', hv', hb']
  | conditional c =>
    obtain ⟨condition, first⟩ := complete
    obtain ⟨e, he⟩ := Option.isSome_iff_exists.mp condition
    obtain ⟨b, hb⟩ := Option.isSome_iff_exists.mp first
    simp only [children, he, hb, Option.toList_some, List.map_append (f := erase)] at hms
    obtain ⟨tests, blocks, rfl, htests, hblocks⟩ := List.map_eq_append_iff.mp hms
    obtain ⟨es, rfl, hes⟩ := exists_map_of_erase (fun _ _ => eq_expression_of_erase) htests
    obtain ⟨bs, rfl, hbs⟩ := exists_map_of_erase (fun _ _ => eq_block_of_erase) hblocks
    obtain ⟨e', rfl, he'⟩ := List.map_eq_singleton_iff.mp hes
    obtain ⟨b', bs, rfl, hb', hbs⟩ := List.map_eq_cons_iff.mp hbs
    cases ho : c.elseBlock with
    | none =>
      obtain rfl : bs = [] := by simpa [ho] using hbs
      refine ⟨conditional ⟨k, some e', some b', none⟩, rfl, ?_⟩
      simp [erase, Conditional.erase_eq, he, hb, ho, he', hb']
    | some o =>
      obtain ⟨o', rfl, ho'⟩ : ∃ o', bs = [o'] ∧ o'.erase = o.erase := by
        simpa [ho, List.map_eq_singleton_iff] using hbs
      refine ⟨conditional ⟨k, some e', some b', some o'⟩, rfl, ?_⟩
      simp [erase, Conditional.erase_eq, he, hb, ho, he', hb', ho']
  | call c =>
    obtain ⟨es, rfl, hes⟩ := exists_map_of_erase (fun _ _ => eq_expression_of_erase) hms
    refine ⟨_, fill_list expression (fun es => call ⟨k, c.name, es⟩) (fun _ _ => rfl) [] es, ?_⟩
    simp [erase, Call.erase_eq, hes]
  | _ => cases h

end Node

end StackCompiler
