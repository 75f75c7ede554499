import StackCompiler.Proofs.Machine.Effect

/-!
The frames of a run, whatever the code: the lowest one has nowhere to return to, and every other one
returns behind a call.
-/

namespace StackCompiler.Machine

open Assembly (Code Instruction)

variable {code : Code} {s t : State}

theorem step_eq_running (h : step code s = .running t) :
    ∃ i, code[s.position]? = some i ∧ s.execute code i = .running t := by
  unfold step at h
  split at h
  · next i hi => exact ⟨i, hi, h⟩
  · cases h

/-- What every step keeps holds at the end of a run if it holds at its beginning. -/
theorem resume_induction {P : State → Prop}
    (keeps : ∀ {s t}, P s → step code s = .running t → P t) {steps : Nat} {o : Outcome}
    (h : resume code steps o = .running t) (start : ∀ s, o = .running s → P s) : P t := by
  induction steps generalizing o with
  | zero =>
    cases o with
    | running s =>
      cases h
      exact start _ rfl
    | halted result console => cases h
  | succ steps ih =>
    cases o with
    | running s => exact ih h fun u hu => keeps (start s rfl) hu
    | halted result console => cases h

/-- A run that has halted did so at its beginning or in some step. -/
theorem resume_eq_halted {steps : Nat} {o : Outcome} {result : Except RunError Value}
    {console : Console} (h : resume code steps o = .halted result console) :
    o = .halted result console ∨ ∃ before s, resume code before o = .running s ∧
      step code s = .halted result console := by
  induction steps generalizing o with
  | zero =>
    cases o with
    | running s => cases h
    | halted result' console' => exact .inl h
  | succ steps ih =>
    cases o with
    | halted result' console' => exact .inl h
    | running s =>
      obtain hs | ⟨before, u, hu, hh⟩ := ih h
      · exact .inr ⟨0, s, rfl, hs⟩
      · exact .inr ⟨before + 1, u, hu, hh⟩

/-- Frames above the lowest one return behind calls. -/
def State.Framed (code : Code) (s : State) : Prop := ∃ calls : List Nat,
  s.returns = calls.map (fun k => some (k + 1)) ++ [none] ∧
    ∀ k ∈ calls, ∃ l, code[k]? = some (.call l)

namespace State.Framed

theorem frames_ne_nil (h : s.Framed code) : s.frames ≠ [] := by
  obtain ⟨calls, hr, -⟩ := h
  rintro hf
  rw [State.returns, hf] at hr
  simp at hr

/-- A call that returns gets behind the call instruction. -/
theorem behind_call (h : s.Framed code) {r : Nat} {rest : List (Option Nat)}
    (hr : s.returns = some r :: rest) : ∃ k l, r = k + 1 ∧ code[k]? = some (.call l) := by
  obtain ⟨calls, hc, found⟩ := h
  cases calls with
  | nil => cases hr.symm.trans hc
  | cons k calls =>
    cases hr.symm.trans hc
    obtain ⟨l, hl⟩ := found k List.mem_cons_self
    exact ⟨k, l, rfl, hl⟩

theorem step (h : s.Framed code) (hs : Machine.step code s = .running t) : t.Framed code := by
  obtain ⟨i, hi, executed⟩ := step_eq_running hs
  obtain ⟨calls, hr, found⟩ := h
  by_cases stays : i.isLocal = true
  · refine ⟨calls, ?_, found⟩
    rw [(execute_local stays executed).1.returns, hr]
  cases i with
  | call l =>
    refine ⟨s.position :: calls, ?_, ?_⟩
    · rw [(execute_call executed).2.2, hr]
      rfl
    · rw [List.forall_mem_cons]
      exact ⟨⟨l, hi⟩, found⟩
  | out =>
    have left := (execute_out executed).1
    cases calls with
    | nil => cases left.symm.trans hr
    | cons k calls =>
      rw [hr, List.map_cons, List.cons_append] at left
      exact ⟨calls, (List.cons.inj left).2.symm, fun k hk => found k (List.mem_cons_of_mem _ hk)⟩
  | _ => exact absurd rfl stays

/-- Control gets to a label, or behind an instruction that does not return. -/
theorem comes (h : s.Framed code) (hs : Machine.step code s = .running t) :
    (∃ l, code[t.position]? = some (.label l)) ∨
      ∃ k i, t.position = k + 1 ∧ code[k]? = some i ∧ i ≠ .out := by
  obtain ⟨i, hi, executed⟩ := step_eq_running hs
  by_cases stays : i.isLocal = true
  · obtain next | ⟨l, -, hl⟩ := (execute_local stays executed).2
    · exact .inr ⟨_, i, next, hi, by rintro rfl; cases stays⟩
    · exact .inl ⟨l, getElem?_of_labelPosition? hl⟩
  cases i with
  | call l => exact .inl ⟨_, getElem?_of_labelPosition? (execute_call executed).1⟩
  | out =>
    obtain ⟨k, l, hk, hl⟩ := h.behind_call (execute_out executed).1
    exact .inr ⟨k, _, hk, hl, by simp⟩
  | _ => exact absurd rfl stays

end State.Framed

/-- A run begins with one frame, so that all of its states are framed. -/
theorem framed_resume {console : Console} {steps : Nat}
    (h : resume code steps (start code console) = .running s) : s.Framed code := by
  refine resume_induction (fun hf hs => hf.step hs) h fun u hu => ?_
  unfold start at hu
  split at hu
  · cases hu
    exact ⟨[], rfl, by simp⟩
  · cases hu

end StackCompiler.Machine
