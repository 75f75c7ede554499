import StackCompiler.Proofs.Assembly.Destinations
import StackCompiler.Proofs.Construction.Aims
import StackCompiler.Proofs.Construction.Reports
import StackCompiler.Proofs.Script.Actions
import StackCompiler.Proofs.Script.Built

/-!
Where the exits of a program lead, whatever the script that built it: to what is around them, unless
the script takes nodes away and puts them back somewhere else. Exits with nothing to leave have been
reported.
-/

namespace StackCompiler.Script

open Assembly

variable {source : String} {st st' : State} {built : Built}

/-- Nothing but values is handed over. -/
def onlyValues : Terms := ⟨Written (· ≠ '\n'), fun n => n.isOperand, True, fun _ => rfl⟩

/-- No exit is opened. -/
def noExits : Terms := ⟨Written (· ≠ '\n'), fun _ => True, False, fun _ => trivial⟩

/-- Without lines that rewind, exits aim at what is around them. -/
theorem Replays.follows (h : Replays source st built)
    (noRewind : ∀ l ∈ lines source, l.action ≠ "rewind") :
    (Node.program built.program).Follows Scope.Aims {} := by
  have moves : Moves onlyValues {} st.stock :=
    moves_lines (fun l hl _ hd => within_directive hd (written_lines hl) (fun _ hw => hw)
      (fun hold => absurd (action_of_directive_hold (hold ▸ hd)) (noRewind l hl))
      fun _ => trivial) h.1
  have tidy := moves.tidy fun _ hn => hn
  rw [h.stock] at tidy
  exact tidy.items.follows

/-- What does not fail takes no diagnostic back. -/
theorem diagnostics_leads {s t : Construction} (h : s.Leads t) :
    s.diagnostics <+: t.diagnostics := by
  induction h with
  | refl => exact List.prefix_rfl
  | tail _ last ih =>
    obtain ⟨a, rfl, -⟩ := last
    exact ih.trans (Construction.diagnostics_perform a)

theorem reports_step {l : Line} (hl : l ∈ lines source) {d : Directive}
    (hd : l.directive = .ok d) (h : st.step d = .ok st')
    (reports : st.construction.Reports st.held) : st'.construction.Reports st'.held := by
  have others (plain : ¬ (d = .perform .startSwitchExit ∨ d = .perform .startLoopExit)) :
      st'.construction.Reports st'.held := by
    have within : d.Within noExits := within_directive hd (written_lines hl) (fun _ hw => hw)
      (fun _ _ => trivial) plain
    have never : ¬ noExits.exits := id
    exact reports.moves never (moves_step within h) (diagnostics_leads (leads_step h))
  by_cases opens : ∃ exit, d = .perform (.startExit exit)
  · obtain ⟨exit, rfl⟩ := opens
    have step : st.step (.perform (.startExit exit)) =
        .ok { st with construction := st.construction.openExit exit } := by
      cases exit <;> rfl
    rw [step] at h
    cases h
    exact reports.openExit exit
  · exact others fun plain => opens (plain.elim (⟨.switch, ·⟩) (⟨.loop, ·⟩))

/-- Each exit of the program that has no target has been reported. -/
theorem Replays.complaints (h : Replays source st built) :
    ((Node.program built.program).collect Node.complaint).Subperm built.diagnostics := by
  have reports : st.construction.Reports st.held :=
    lines_induction (P := fun st => st.construction.Reports st.held)
      (fun l hl _ _ _ hd hs => reports_step hl hd hs) h.1
      (fun d => by simp [Stock.complaints, Construction.stock, Construction.items])
  rw [List.subperm_ext_iff]
  intro d _
  have all := reports d
  have stock := h.stock
  rw [State.stock] at stock
  rw [stock, h.2.2, Stock.complaints] at all
  simp only [List.cons_append, List.nil_append, List.flatMap_cons, List.count_append] at all
  omega

/-- Whatever a script does but rewind: a break of its program aims at the innermost switch around it
and a loop exit at the innermost loop, and without one they have no target. So every jump of a
function has its label there, but for the exits without a target. Each of these was reported. -/
theorem exits_aim (h : replay source = .ok built)
    (noRewind : ∀ l ∈ lines source, l.action ≠ "rewind") :
    (Node.program built.program).Follows Scope.Aims {} ∧
      (∀ f ∈ built.program.functions, ∀ i ∈ function f, ∀ l, i.destination? = some l →
        l ∈ labels (function f) ∨ ∃ n ∈ (Node.function f).subtree, n.strayText? = some l.text) ∧
      ((Node.program built.program).collect Node.complaint).Subperm built.diagnostics := by
  obtain ⟨st, replays⟩ := replay_eq_ok h
  have follows := replays.follows noRewind
  refine ⟨follows, fun f hf i hi l hl => ?_, replays.complaints⟩
  exact destination_mem_labels (follows.inside _ (List.mem_map_of_mem hf)) hi hl

theorem exits_aim_exit : (∀ l ∈ lines exitSource, l.action ≠ "rewind") ∧
    (Node.program exitProgram).Follows Scope.Aims {} ∧
      ((Node.program exitProgram).collect Node.complaint).Subperm exitDiagnostics := by
  have noRewind : ∀ l ∈ lines exitSource, l.action ≠ "rewind" := by
    unfold lines exitSource
    simp only [String.toList_append]
    decide +kernel
  have aim := exits_aim replay_exit noRewind
  exact ⟨noRewind, aim.1, aim.2.2⟩

end StackCompiler.Script
