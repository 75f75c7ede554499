import StackCompiler.Proofs.Construction.Move
import StackCompiler.Script.Replay

/-!
The program of a script comes about by moves, and every text in it is a piece of the script.
-/

namespace StackCompiler.Script

variable {terms : Terms}

/-- The directive does nothing but what the moves may do. -/
def Directive.Within (terms : Terms) : Directive → Prop
  | .perform action => action.Within terms
  | .expression words | .caseValue words => ∀ w ∈ words, terms.text w
  | .hold => ∀ n, terms.handOver n
  | .release => True

theorem within_wordAction {word : String} (h : terms.text word) :
    (wordAction word).Within terms := by
  unfold wordAction
  split_ifs <;> first | exact trivial | exact h

theorem wordAction_reply (s : Construction) (word : String) :
    (s.perform (wordAction word)).1 = .nothing := by
  unfold wordAction
  split_ifs <;> rfl

theorem moves_words (s : Construction) {words : List String} {loose : List Node}
    (hw : ∀ w ∈ words, terms.text w) : Moves terms (s.stock loose)
      ((words.foldl (fun s word => (s.perform (wordAction word)).2) s).stock loose) := by
  induction words generalizing s with
  | nil => exact .refl
  | cons w words ih =>
    simp only [List.mem_cons, forall_eq_or_imp] at hw
    refine .trans ?_ (ih _ hw.2)
    exact Construction.moves_perform (within_wordAction hw.1)
      (Prod.ext (wordAction_reply s w) rfl) (by simp)

theorem moves_writeExpression {s t : Construction} {words : List String} {loose : List Node}
    (hw : ∀ w ∈ words, terms.text w) (h : writeExpression s words = .ok t) :
    Moves terms (s.stock loose) (t.stock loose) := by
  unfold writeExpression at h
  dsimp only at h
  split at h
  · next hs =>
    cases h
    have opened : Moves terms (s.stock loose)
        ((s.openNode (Opening.node .expression)).stock loose) := .single (.start .expression)
    exact opened.trans ((moves_words _ hw).trans (Construction.moves_endExpression hs))
  · cases h

/-- The nodes of the construction, and those that the script holds. -/
def State.stock (st : State) : Stock := st.construction.stock st.held

theorem moves_step {st st' : State} {d : Directive} (hd : d.Within terms)
    (h : st.step d = .ok st') : Moves terms st.stock st'.stock := by
  cases d with
  | perform action =>
    simp only [State.step] at h
    split at h
    · cases h
    · next r c hr hc =>
      cases h
      exact Construction.moves_perform hd hc (by simpa using hr)
  | expression words =>
    simp only [State.step] at h
    cases hc : writeExpression st.construction words with
    | error cause => rw [hc] at h; cases h
    | ok c =>
      rw [hc] at h
      cases h
      exact moves_writeExpression hd hc
  | caseValue words =>
    simp only [State.step] at h
    cases hc : writeExpression st.construction words with
    | error cause => rw [hc] at h; cases h
    | ok c =>
      rw [hc] at h
      refine .trans (moves_writeExpression hd hc) ?_
      dsimp only [Bind.bind, Except.bind] at h
      cases hp : c.popExpression with
      | mk value rest =>
        rw [hp] at h
        cases value with
        | some value =>
          cases h
          exact (Construction.moves_popExpression hp).trans Construction.moves_beginCase
        | none =>
          cases h
          exact Construction.moves_popExpression_none hp
  | hold =>
    simp only [State.step] at h
    split at h
    · next taken c hs =>
      cases h
      have lost : Moves terms (st.construction.stock (st.held ++ [])) (st.construction.stock []) :=
        Construction.moves_forget st.held
      have rewound : Moves terms (st.construction.stock []) (c.stock (taken ++ [])) :=
        Construction.moves_rewind (fun n _ => hd n) hs
      rw [List.append_nil] at lost rewound
      exact lost.trans rewound
    · cases h
  | release =>
    cases h
    have back : Moves terms (st.construction.stock (st.held ++ []))
        ((st.construction.reattach st.held).stock []) := Construction.moves_reattach st.held
    rw [List.append_nil] at back
    exact back

/-- All characters of the text are of one kind, such as all that a line can hold. -/
def Written (ok : Char → Prop) (text : String) : Prop := ∀ c ∈ text.toList, ok c

theorem mem_of_mem_stripComment {c : Char} {cs : List Char} {quote : Option Char}
    (h : c ∈ stripComment quote cs) : c ∈ cs := by
  induction cs generalizing quote with
  | nil => cases quote <;> cases h
  | cons d cs ih =>
    cases quote with
    | some q =>
      simp only [stripComment, List.mem_cons] at h ⊢
      exact h.imp_right ih
    | none =>
      simp only [stripComment] at h
      split at h
      · cases h
      · simp only [List.mem_cons] at h ⊢
        exact h.imp_right ih

theorem mem_of_mem_splitFirst {c : Char} {cs first : List Char} {rest : Option (List Char)}
    (h : Text.splitFirst cs = (first, rest)) :
    (c ∈ first → c ∈ cs) ∧ (∀ r ∈ rest, c ∈ r → c ∈ cs) := by
  induction cs generalizing first rest with
  | nil => cases h; simp
  | cons d cs ih =>
    simp only [Text.splitFirst] at h
    split at h
    · cases h; simp +contextual
    · cases h
      have hc := ih rfl
      refine ⟨fun hm => ?_, fun r hr hm => List.mem_cons_of_mem _ (hc.2 r hr hm)⟩
      simp only [List.mem_cons] at hm ⊢
      exact hm.imp_right hc.1

theorem mem_of_mem_splitFields (c : Char) (cs : List Char) :
    (c ∈ (Text.splitFields cs).1 → c ∈ cs) ∧
      (∀ f ∈ (Text.splitFields cs).2, c ∈ f → c ∈ cs) := by
  induction cs with
  | nil => simp [Text.splitFields]
  | cons d cs ih =>
    simp only [Text.splitFields]
    split
    · refine ⟨by simp, fun f hf hm => List.mem_cons_of_mem _ ?_⟩
      dsimp only at hf
      split at hf
      · exact ih.2 f hf hm
      · obtain rfl | hf := List.mem_cons.mp hf
        · exact ih.1 hm
        · exact ih.2 f hf hm
    · refine ⟨fun hm => ?_, fun f hf hm => List.mem_cons_of_mem _ (ih.2 f hf hm)⟩
      simp only [List.mem_cons] at hm ⊢
      exact hm.imp_right ih.1

variable {ok : Char → Prop}

theorem written_wordsOf {text : String} (h : Written ok text) : ∀ w ∈ wordsOf text, Written ok w := by
  intro w hw c hc
  obtain ⟨f, hf, rfl⟩ := List.mem_map.mp hw
  rw [String.toList_ofList] at hc
  apply h c
  have hs := mem_of_mem_splitFields c text.toList
  unfold Text.fields at hf
  dsimp only at hf
  split at hf
  · exact hs.2 f hf hc
  · obtain rfl | hf := List.mem_cons.mp hf
    · exact hs.1 hc
    · exact hs.2 f hf hc

theorem within_operatorAction {text : String} : (operatorAction text).Within terms := by
  unfold operatorAction
  split <;> trivial

theorem within_directive {l : Line} {d : Directive} (h : l.directive = .ok d)
    (hl : ∀ a ∈ l.argument, Written ok a) (texts : ∀ text, Written ok text → terms.text text)
    (holds : d = .hold → ∀ n, terms.handOver n)
    (exits : d = .perform .startSwitchExit ∨ d = .perform .startLoopExit → terms.exits) :
    d.Within terms := by
  unfold Line.directive at h
  cases ha : l.argument with
  | none =>
    simp only [ha] at h
    split at h <;> cases h
    all_goals first
      | trivial
      | exact exits (.inl rfl)
      | exact exits (.inr rfl)
      | exact holds rfl
  | some a =>
    have hw := hl a ha
    have words := fun w hw' => texts w (written_wordsOf hw w hw')
    simp only [ha] at h
    split at h <;> cases h
    all_goals first
      | trivial
      | exact exits (.inl rfl)
      | exact exits (.inr rfl)
      | exact holds rfl
      | exact texts a hw
      | exact words
      | exact within_operatorAction

/-- Where any text may be written, it does not matter what the line holds. -/
theorem within_of_texts {l : Line} {d : Directive} (h : l.directive = .ok d)
    (texts : ∀ text, terms.text text) (holds : d = .hold → ∀ n, terms.handOver n)
    (exits : terms.exits) : d.Within terms := by
  have written : ∀ a ∈ l.argument, Written (fun _ => True) a := fun _ _ _ _ => trivial
  exact within_directive h written (fun text _ => texts text) holds fun _ => exits

theorem directive_rewind {l : Line} (h : l.action = "rewind") : l.directive = .ok .hold := by
  simp [Line.directive, h]

theorem directive_reattach {l : Line} (h : l.action = "reattach") :
    l.directive = .ok .release := by
  simp [Line.directive, h]

theorem action_of_directive_hold {l : Line} (h : l.directive = .ok .hold) :
    l.action = "rewind" := by
  unfold Line.directive at h
  dsimp only at h
  split at h
  case h_26 action => exact action
  all_goals first
    | cases h
    | (split at h <;> cases h)

theorem written_argument {n : Nat} {cs : List Char} {l : Line} (hc : ∀ c ∈ cs, ok c)
    (h : Line.ofChars? n cs = some l) : ∀ a ∈ l.argument, Written ok a := by
  unfold Line.ofChars? at h
  dsimp only at h
  split at h
  · cases h
  · cases h
    intro a ha c hm
    obtain ⟨r, hr, hn⟩ := Option.bind_eq_some_iff.mp ha
    unfold nonempty? at hn
    split at hn <;> cases hn
    rw [String.toList_ofList] at hm
    have line := (mem_of_mem_splitFirst (c := c) rfl).2 r hr (Text.mem_of_mem_trim hm)
    exact hc c (mem_of_mem_stripComment (Text.mem_of_mem_trim line))

/-- A script line holds no line feed. -/
theorem written_lines {source : String} {l : Line} (hl : l ∈ lines source) :
    ∀ a ∈ l.argument, Written (· ≠ '\n') a := by
  obtain ⟨⟨cs, n⟩, hcs, hl⟩ := List.mem_filterMap.mp hl
  have piece : cs ∈ Text.lines source.toList := by
    have := List.mem_zipIdx hcs
    simp only [Nat.zero_add, Nat.sub_zero] at this
    exact this.2.2 ▸ List.getElem_mem _
  refine written_argument (fun c hc => ?_) hl
  rintro rfl
  exact Text.not_mem_of_mem_split '\n' piece hc

theorem line_eq_ok {st st' : State} {l : Line} (h : st.line l = .ok st') :
    ∃ d, l.directive = .ok d ∧ st.step d = .ok st' := by
  unfold State.line at h
  split at h
  · cases h
  · cases h
  · next d hd =>
    cases hs : st.step d with
    | error cause => rw [hs] at h; cases h
    | ok next => rw [hs] at h; cases h; exact ⟨d, hd, hs⟩

/-- What every line keeps holds at the end of a script if it holds at its beginning. -/
theorem lines_induction {P : State → Prop} {ls : List Line} {st st' : State}
    (keeps : ∀ l ∈ ls, ∀ {d s t}, l.directive = .ok d → State.step s d = .ok t → P s → P t)
    (h : ls.foldlM State.line st = .ok st') (start : P st) : P st' := by
  induction ls generalizing st with
  | nil =>
    cases h
    exact start
  | cons l ls ih =>
    rw [List.foldlM_cons] at h
    cases hn : st.line l with
    | error cause =>
      rw [hn] at h
      cases h
    | ok next =>
      rw [hn] at h
      obtain ⟨d, hd, hs⟩ := line_eq_ok hn
      exact ih (fun m hm => keeps m (List.mem_cons_of_mem l hm)) h
        (keeps l List.mem_cons_self hd hs start)

theorem moves_lines {st st' : State} {ls : List Line}
    (hl : ∀ l ∈ ls, ∀ {d}, l.directive = .ok d → d.Within terms)
    (h : ls.foldlM State.line st = .ok st') : Moves terms st.stock st'.stock :=
  lines_induction (P := fun t => Moves terms st.stock t.stock)
    (fun l hm _ _ _ hd hs moves => moves.trans (moves_step (hl l hm hd) hs)) h .refl

theorem finish_eq_ok {s : Construction} {p : Program} (h : s.finish = .ok p) :
    s.items = [.program p] ∧ s.aborted = false := by
  unfold Construction.finish at h
  split at h
  · cases h
  · next ha =>
    split at h <;> cases h
    exact ⟨‹_›, by simpa using ha⟩

/-- The state in which a script ends that replays. -/
def Replays (source : String) (st : State) (built : Built) : Prop :=
  (lines source).foldlM State.line {} = .ok st ∧ st.construction.finish = .ok built.program ∧
    st.construction.diagnostics = built.diagnostics

theorem replay_eq_ok {source : String} {built : Built} (h : replay source = .ok built) :
    ∃ st, Replays source st built := by
  unfold replay at h
  cases hs : (lines source).foldlM State.line {} with
  | error cause =>
    rw [hs] at h
    cases h
  | ok st =>
    rw [hs] at h
    change (st.construction.finish.mapError Failure.finish >>= fun program =>
      .ok ⟨program, st.construction.diagnostics⟩) = .ok built at h
    cases hp : st.construction.finish with
    | error cause =>
      rw [hp] at h
      cases h
    | ok p =>
      rw [hp] at h
      cases h
      exact ⟨st, hs, hp, rfl⟩

/-- In the end the program is the only open node. -/
theorem Replays.stock {source : String} {st : State} {built : Built} (h : Replays source st built) :
    st.stock = ⟨[.program built.program], st.held, st.construction.nextId⟩ := by
  rw [State.stock, Construction.stock, (finish_eq_ok h.2.1).1]

/-- The program of a script comes about by moves that write what a line can hold. -/
theorem Replays.moves {source : String} {st : State} {built : Built} (h : Replays source st built)
    (texts : terms.text = Written (· ≠ '\n')) (handOver : ∀ n, terms.handOver n)
    (exits : terms.exits) : Moves terms {} st.stock :=
  moves_lines (fun _ hl _ hd => within_directive hd (written_lines hl)
    (fun _ hw => texts ▸ hw) (fun _ => handOver) fun _ => exits) h.1

end StackCompiler.Script
