import Mathlib.Logic.Relation
import StackCompiler.Proofs.Construction.Underflow
import StackCompiler.Proofs.Script.Moves

/-!
A line of a script that does not fail is a sequence of actions that do not fail, and so is a whole
script. Whatever such actions keep, scripts keep.
-/

namespace StackCompiler

namespace Construction

variable {s t : Construction}

/-- An action that does not fail. -/
def Succeeds (s t : Construction) : Prop :=
  ∃ a, (s.perform a).2 = t ∧ ∀ cause, (s.perform a).1 ≠ .failure cause

def Leads : Construction → Construction → Prop := Relation.ReflTransGen Succeeds

theorem leads_perform {a : Action} {r : Reply} (h : s.perform a = (r, t))
    (hr : ∀ cause, r ≠ .failure cause) : s.Leads t :=
  .single ⟨a, by rw [h], by rw [h]; exact hr⟩

theorem leads_endExpression (h : s.endExpression = (.ok (), t)) : s.Leads t :=
  leads_perform (a := .endExpression) (r := .nothing) (by simp only [perform, h]) (by simp)

theorem leads_popExpression {value : Option Expression} (h : s.popExpression = (value, t)) :
    s.Leads t := by
  cases value with
  | none =>
    exact leads_perform (a := .popExpression) (r := .nothing) (by simp only [perform, h]) (by simp)
  | some e =>
    exact leads_perform (a := .popExpression) (r := .expression e) (by simp only [perform, h])
      (by simp)

theorem leads_rewind {taken : List Node} (h : s.rewind = (.ok taken, t)) : s.Leads t :=
  leads_perform (a := .rewind) (r := .nodes taken) (by simp only [perform, h]) (by simp)

/-- What does not fail does not end the construction. -/
theorem Succeeds.alive (h : s.Succeeds t) (alive : s.aborted = false) : t.aborted = false := by
  obtain ⟨a, rfl, succeeds⟩ := h
  rw [← Bool.not_eq_true, aborted_perform alive]
  rintro ⟨back, mark, stale⟩
  exact succeeds _ (perform_underflow.mpr ⟨back, stale, rfl⟩)

theorem Leads.alive (h : s.Leads t) (alive : s.aborted = false) : t.aborted = false := by
  induction h with
  | refl => exact alive
  | tail _ last ih => exact last.alive ih

end Construction

namespace Script

variable {st st' : State} {d : Directive}

theorem leads_words (s : Construction) (words : List String) :
    s.Leads (words.foldl (fun s word => (s.perform (wordAction word)).2) s) := by
  induction words generalizing s with
  | nil => exact .refl
  | cons word words ih =>
    have reply : s.perform (wordAction word) = (.nothing, (s.perform (wordAction word)).2) :=
      Prod.ext (wordAction_reply s word) rfl
    exact (Construction.leads_perform reply (by simp)).trans (ih _)

theorem leads_writeExpression {s t : Construction} {words : List String}
    (h : writeExpression s words = .ok t) : s.Leads t := by
  unfold writeExpression at h
  dsimp only at h
  split at h
  · next ended =>
    cases h
    have opened : s.Leads (s.openNode (Opening.node .expression)) :=
      Construction.leads_perform (a := .start .expression) rfl (by simp)
    exact opened.trans ((leads_words _ words).trans (Construction.leads_endExpression ended))
  · cases h

theorem leads_step (h : st.step d = .ok st') : st.construction.Leads st'.construction := by
  cases d with
  | perform action =>
    simp only [State.step] at h
    split at h
    · cases h
    · next r c hr hc =>
      cases h
      exact Construction.leads_perform hc (by simpa using hr)
  | expression words =>
    simp only [State.step] at h
    cases hw : writeExpression st.construction words with
    | error cause => rw [hw] at h; cases h
    | ok s =>
      rw [hw] at h
      cases h
      exact leads_writeExpression hw
  | caseValue words =>
    simp only [State.step] at h
    cases hw : writeExpression st.construction words with
    | error cause => rw [hw] at h; cases h
    | ok s =>
      rw [hw] at h
      dsimp only [Bind.bind, Except.bind] at h
      refine (leads_writeExpression hw).trans ?_
      split at h
      · next value rest hs =>
        cases h
        have begun : rest.Leads (rest.beginCase value) :=
          Construction.leads_perform (a := .beginCase value) rfl (by simp)
        exact (Construction.leads_popExpression hs).trans begun
      · next hs =>
        cases h
        exact Construction.leads_popExpression hs
  | hold =>
    simp only [State.step] at h
    split at h
    · next hs =>
      cases h
      exact Construction.leads_rewind hs
    · cases h
  | release =>
    cases h
    exact Construction.leads_perform (a := .reattach st.held) rfl (by simp)

theorem leads_lines {ls : List Line} (h : ls.foldlM State.line st = .ok st') :
    st.construction.Leads st'.construction :=
  lines_induction (P := fun t => st.construction.Leads t.construction)
    (fun _ _ _ _ _ _ hs before => before.trans (leads_step hs)) h .refl

end Script

end StackCompiler
