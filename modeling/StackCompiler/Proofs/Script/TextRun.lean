import StackCompiler.Proofs.Assembly.Lines
import StackCompiler.Proofs.Machine.Comments
import StackCompiler.Proofs.Script.Built

/-!
The text of the code of a script runs as the code does.
-/

namespace StackCompiler.Script

open Assembly Machine

variable {source : String} {built : Built}

/-- Lines of a script hold no line feed, and so no text of its program has one. -/
theorem replay_texts (h : replay source = .ok built) :
    (Node.program built.program).Every fun m => ∀ text ∈ m.texts, '\n' ∉ text.toList := by
  have written := replay_every (kept_texts (by simp [Written])) h
  exact fun m hm text ht hc => written m hm text ht _ hc rfl

/-- The text is read, and the code that is read ends just as the code of the program does, in the
same result or error and with the same output. Only the position of an operator without an
instruction is told without the comments before it. -/
theorem text_run (h : replay source = .ok built) (hw : ∀ i ∈ ofProgram built.program, i.Worded) :
    ∃ code, Code.ofText (Code.text (ofProgram built.program)) = .ok code ∧ ∀ console,
      (∀ result final, Ends (ofProgram built.program) console result final →
        Ends code console (result.mapError (RunError.bare (ofProgram built.program))) final) ∧
      ∀ result final, Ends code console result final →
        ∃ direct, Ends (ofProgram built.program) console direct final ∧
          result = direct.mapError (RunError.bare (ofProgram built.program)) := by
  refine ⟨_, ofText_text_ofProgram (replay_texts h) hw, fun console => ⟨?_, ?_⟩⟩
  · intro result final ends
    exact ends.bare
  · intro result final ends
    exact ends.of_bare

theorem text_run_sample : ∃ code, Code.ofText (Code.text (ofProgram sampleProgram)) = .ok code ∧
    ∃ v, Ends code {} (.ok v) {} := by
  have worded : ∀ i ∈ ofProgram sampleProgram, i.Worded := by decide +kernel
  obtain ⟨code, read, run⟩ := text_run replay_sample worded
  have direct : ∃ v, Ends (ofProgram sampleProgram) {} (.ok v) {} := ⟨_, 30, rfl⟩
  obtain ⟨v, ends⟩ := direct
  exact ⟨code, read, v, (run {}).1 _ _ ends⟩

end StackCompiler.Script
