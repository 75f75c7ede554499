import Mathlib.Data.List.Basic
import StackCompiler.Proofs.Assembly.Bare
import StackCompiler.Proofs.Assembly.Words

/-!
Printed code reads back as the code without its comments, provided that every text in it is a word
that is read as what it was.
-/

namespace StackCompiler

/-- A label is read from its text. -/
theorem Label.read?_text (l : Label) : Label.read? l.text = some l := by
  have text : l.text.toList = '$' :: '$' :: (l.name.toList ++ ['$', '$']) := by
    simp [Label.text]
  have trimmed : Text.trim l.text.toList = l.text.toList := by
    refine Text.trim_eq_self (fun c hc => ?_) fun c hc => ?_
    · rw [text] at hc
      cases hc
      rfl
    · have ends : l.text.toList = '$' :: '$' :: l.name.toList ++ ['$'] ++ ['$'] := by simp [text]
      rw [ends, List.getLast?_concat] at hc
      cases hc
      rfl
  have name : l.name.toList ≠ [] := fun h => l.name_ne (String.toList_injective h)
  obtain ⟨c, before, hname⟩ := List.exists_cons_of_ne_nil (List.reverse_ne_nil_iff.mpr name)
  rw [Label.read?, Label.ofChars?, trimmed, text]
  simp only [List.reverse_append, List.reverse_cons, List.reverse_nil, List.nil_append,
    List.cons_append, hname]
  have same : String.ofList (before.reverse ++ [c]) = l.name := by
    rw [← List.reverse_cons, ← hname, List.reverse_reverse, String.ofList_toList]
  simp [same, l.name_ne]

namespace Assembly

theorem not_mem_intercalate {α : Type} {a : α} {separator : List α} {pieces : List (List α)}
    (hs : a ∉ separator) (h : ∀ piece ∈ pieces, a ∉ piece) : a ∉ separator.intercalate pieces := by
  induction pieces with
  | nil => simp
  | cons piece pieces ih =>
    rw [List.forall_mem_cons] at h
    cases pieces with
    | nil => simpa using h.1
    | cons next pieces =>
      rw [List.intercalate_cons_cons, List.mem_append, List.mem_append, not_or, not_or]
      exact ⟨⟨h.1, hs⟩, ih h.2⟩

def startsQuoted (text : String) : Bool := text.toList.head?.any isQuote

/-- The text is a word, and a variable's name is none that means something else. -/
def Operand.Worded : Operand → Prop
  | pop => True
  | slot name => IsWord name.toList ∧ name ≠ "pop" ∧ startsQuoted name = false ∧
      (Decimal.read? name).isNone
  | literal text => IsWord text.toList

def Target.Worded : Target → Prop
  | push => True
  | slot name => IsWord name.toList ∧ name ≠ "push"

instance : DecidablePred Operand.Worded
  | .pop => inferInstanceAs (Decidable True)
  | .slot _ => inferInstanceAs (Decidable (_ ∧ _ ∧ _ ∧ _))
  | .literal _ => inferInstanceAs (Decidable (IsWord _))

instance : DecidablePred Target.Worded
  | .push => inferInstanceAs (Decidable True)
  | .slot _ => inferInstanceAs (Decidable (_ ∧ _))

/-- A literal is known from its first character or from being a number. -/
def Operand.Literate : Operand → Prop
  | literal text => startsQuoted text ∨ (Decimal.read? text).isSome
  | _ => True

instance : DecidablePred Operand.Literate
  | .literal _ => inferInstanceAs (Decidable (_ ∨ _))
  | .pop | .slot _ => inferInstanceAs (Decidable True)

theorem Operand.ofWord_text {o : Operand} (h : o.Worded) (hl : o.Literate) : ofWord o.text = o := by
  cases o with
  | pop => rfl
  | slot name =>
    obtain ⟨-, hpop, hquote, hnumber⟩ := h
    unfold startsQuoted at hquote
    rw [Option.isNone_iff_eq_none] at hnumber
    simp [ofWord, Operand.text, hpop, hquote, hnumber]
  | literal text =>
    have hpop : text ≠ "pop" := by
      rintro rfl
      revert hl
      unfold Literate
      decide +kernel
    have known : (text.toList.head?.any isQuote || (Decimal.read? text).isSome) = true := by
      rw [Bool.or_eq_true]
      exact hl
    have read : ofWord text = .literal text := by rw [ofWord, if_neg hpop, if_pos known]
    exact read

theorem Target.ofWord_text {t : Target} (h : t.Worded) : ofWord t.text = t := by
  cases t with
  | push => rfl
  | slot name => simp [ofWord, Target.text, h.2]

theorem Operand.Worded.isWord_text {o : Operand} (h : o.Worded) : IsWord o.text.toList := by
  cases o with
  | pop => decide
  | slot name => exact h.1
  | literal text => exact h

theorem Target.Worded.isWord_text {t : Target} (h : t.Worded) : IsWord t.text.toList := by
  cases t with
  | push => decide
  | slot name => exact h.1

theorem UnaryOp.isWord_mnemonic (op : UnaryOp) : IsWord op.mnemonic.toList := by
  cases op <;> decide

theorem BinaryOp.isWord_mnemonic (op : BinaryOp) : IsWord op.mnemonic.toList := by
  cases op <;> decide

namespace Instruction

def Worded : Instruction → Prop
  | label l | jump l | call l => IsWord l.text.toList
  | mov target source => target.Worded ∧ source.Worded
  | unary _ source target => source.Worded ∧ target.Worded
  | binary _ first second target => first.Worded ∧ second.Worded ∧ target.Worded
  | jumpFalse l condition => IsWord l.text.toList ∧ condition.Worded
  | _ => True

instance : DecidablePred Worded
  | .label _ | .jump _ | .call _ => inferInstanceAs (Decidable (IsWord _))
  | .mov .. | .unary .. | .jumpFalse .. => inferInstanceAs (Decidable (_ ∧ _))
  | .binary .. => inferInstanceAs (Decidable (_ ∧ _ ∧ _))
  | .comment _ | .out | .print _ | .read _ | .unknown _ => inferInstanceAs (Decidable True)

def operands : Instruction → List Operand
  | mov _ source | unary _ source _ => [source]
  | binary _ first second _ => [first, second]
  | jumpFalse _ condition => [condition]
  | _ => []

theorem isWord_words {i : Instruction} (h : i.Worded) (hi : i.isComment = false) :
    ∀ w ∈ i.words, IsWord w.toList := by
  have pops {count : Nat} : ∀ w ∈ List.replicate count "pop", IsWord w.toList := by
    intro w hw
    rw [List.eq_of_mem_replicate hw]
    decide
  cases i with
  | comment text => cases hi
  | label l | jump l | call l =>
    simp only [words, List.forall_mem_cons]
    exact ⟨by decide, h, by simp⟩
  | mov target source =>
    simp only [words, List.forall_mem_cons]
    exact ⟨by decide, h.1.isWord_text, h.2.isWord_text, by simp⟩
  | unary op source target =>
    simp only [words, List.forall_mem_cons]
    exact ⟨op.isWord_mnemonic, h.1.isWord_text, h.2.isWord_text, by simp⟩
  | binary op first second target =>
    simp only [words, List.forall_mem_cons]
    exact ⟨op.isWord_mnemonic, h.1.isWord_text, h.2.1.isWord_text, h.2.2.isWord_text, by simp⟩
  | jumpFalse l condition =>
    simp only [words, List.forall_mem_cons]
    exact ⟨by decide, h.1, h.2.isWord_text, by simp⟩
  | out => decide
  | print count | read count =>
    simp only [words, List.forall_mem_cons]
    exact ⟨by decide, pops⟩
  | unknown arity =>
    simp only [words, List.forall_mem_append, List.forall_mem_cons]
    exact ⟨⟨by decide, pops⟩, by decide, by simp⟩

theorem popCount_replicate (count : Nat) : popCount (List.replicate count "pop") = .ok count := by
  have all : (List.replicate count "pop").find? (· != "pop") = none := by
    rw [List.find?_eq_none]
    intro w hw
    simp [List.eq_of_mem_replicate hw]
  rw [popCount, all, List.length_replicate]

theorem ofWords_words {i : Instruction} (h : i.Worded) (hl : ∀ o ∈ i.operands, o.Literate)
    (hi : i.isComment = false) : ofWords i.words = .ok i := by
  cases i with
  | comment text => cases hi
  | label l | jump l | call l =>
    simp [words, ofWords, ofMnemonic, labelOfWord, Label.read?_text, Except.map]
  | mov target source =>
    have source := Operand.ofWord_text h.2 (hl source (by simp [operands]))
    simp [words, ofWords, ofMnemonic, Target.ofWord_text h.1, source]
  | unary op source target =>
    have source := Operand.ofWord_text h.1 (hl source (by simp [operands]))
    cases op <;> simp [words, ofWords, ofMnemonic, UnaryOp.mnemonic, UnaryOp.ofMnemonic?,
      Target.ofWord_text h.2, source]
  | binary op first second target =>
    have first := Operand.ofWord_text h.1 (hl first (by simp [operands]))
    have second := Operand.ofWord_text h.2.1 (hl second (by simp [operands]))
    cases op <;> simp [words, ofWords, ofMnemonic, BinaryOp.mnemonic, UnaryOp.ofMnemonic?,
      BinaryOp.ofMnemonic?, Target.ofWord_text h.2.2, first, second]
  | jumpFalse l condition =>
    have condition := Operand.ofWord_text h.2 (hl condition (by simp [operands]))
    simp [words, ofWords, ofMnemonic, labelOfWord, Label.read?_text, Except.map, condition]
  | out => rfl
  | print count | read count =>
    simp [words, ofWords, ofMnemonic, popCount_replicate, Except.map]
  | unknown arity =>
    simp [words, ofWords, ofMnemonic, popCount_replicate, Except.map]

theorem toList_text (i : Instruction) :
    i.text.toList = [' '].intercalate (i.words.map String.toList) := by
  rw [text, String.toList_intercalate]
  rfl

theorem newline_not_mem_text {i : Instruction} (h : ∀ w ∈ i.words, '\n' ∉ w.toList) :
    '\n' ∉ i.text.toList := by
  rw [toList_text]
  refine not_mem_intercalate (by decide) fun cs hcs => ?_
  obtain ⟨w, hw, rfl⟩ := List.mem_map.mp hcs
  exact h w hw

theorem isWord_map_words {i : Instruction} (h : i.Worded) (hi : i.isComment = false) :
    ∀ w ∈ i.words.map String.toList, IsWord w := by
  intro cs hcs
  obtain ⟨w, hw, rfl⟩ := List.mem_map.mp hcs
  exact isWord_words h hi w hw

theorem ofChars_text {i : Instruction} (h : i.Worded) (hl : ∀ o ∈ i.operands, o.Literate)
    (hi : i.isComment = false) : ofChars i.text.toList = .ok i := by
  have same : i.words.map (String.ofList ∘ String.toList) = i.words := by
    refine (List.map_congr_left fun w _ => ?_).trans (List.map_id _)
    exact String.ofList_toList
  rw [ofChars, toList_text, words?_intercalate (isWord_map_words h hi)]
  simp only [List.map_map, same]
  exact ofWords_words h hl hi

theorem trim_text {i : Instruction} (h : i.Worded) (hi : i.isComment = false) :
    Text.trim i.text.toList = i.text.toList := by
  rw [toList_text]
  exact trim_intercalate (isWord_map_words h hi)

theorem intercalate_ne_slashes {w : List Char} (hw : w ≠ []) (h : w.tail.head? ≠ some '/')
    (words : List (List Char)) (cs : List Char) :
    [' '].intercalate (w :: words) ≠ '/' :: '/' :: cs := by
  intro line
  obtain ⟨c, w, rfl⟩ := List.exists_cons_of_ne_nil hw
  cases w with
  | nil =>
    cases words with
    | nil => simp at line
    | cons v words => simp [List.intercalate_cons_cons] at line
  | cons d w =>
    have second : d = '/' := by
      cases words with
      | nil =>
        rw [List.intercalate_singleton] at line
        exact (List.cons.inj (List.cons.inj line).2).1
      | cons v words =>
        rw [List.intercalate_cons_cons] at line
        exact (List.cons.inj (List.cons.inj line).2).1
    exact h (by rw [second]; rfl)

/-- No mnemonic starts with two slashes. -/
theorem text_ne_slashes {i : Instruction} (hi : i.isComment = false) :
    i.text.toList ≠ [] ∧ ∀ cs, i.text.toList ≠ '/' :: '/' :: cs := by
  obtain ⟨m, args, hwords, hm, hsecond⟩ : ∃ m args, i.words = m :: args ∧ m.toList ≠ [] ∧
      m.toList.tail.head? ≠ some '/' := by
    cases i with
    | comment text => cases hi
    | unary op source target => cases op <;> exact ⟨_, _, rfl, by decide, by decide⟩
    | binary op first second target => cases op <;> exact ⟨_, _, rfl, by decide, by decide⟩
    | _ => exact ⟨_, _, rfl, by decide, by decide⟩
  rw [toList_text, hwords, List.map_cons]
  refine ⟨fun empty => ?_, intercalate_ne_slashes hm hsecond _⟩
  have start := head?_intercalate hm (args.map String.toList)
  rw [empty, List.head?_nil, eq_comm, List.head?_eq_none_iff] at start
  exact hm start

/-- The line of a comment starts with two slashes. -/
theorem trim_comment (text : String) :
    ∃ cs, Text.trim (comment text).text.toList = '/' :: '/' :: cs := by
  have line : (comment text).text.toList = '/' :: '/' :: ' ' :: text.toList := by
    rw [toList_text]
    simp [words, List.intercalate_cons_cons]
  rw [line, Text.trim, Text.trimStart, List.dropWhile_cons_of_neg (by decide),
    Text.trimEnd_cons (by decide), Text.trimEnd_cons (by decide)]
  exact ⟨_, rfl⟩

end Instruction

namespace Code

variable {code : Code}

/-- A separator puts an end to what stands before it. -/
theorem split_separated {α : Type} [DecidableEq α] (a : α) (as rest : List α) :
    Text.split a (as ++ a :: rest) = Text.split a as ++ Text.split a rest := by
  induction as with
  | nil => simp [Text.split, Text.splitFrom]
  | cons b as ih =>
    simp only [Text.split, List.cons_append, Text.splitFrom] at ih ⊢
    rw [List.cons.injEq] at ih
    split <;> simp [ih]

theorem split_of_not_mem {α : Type} [DecidableEq α] {a : α} {as : List α} (h : a ∉ as) :
    Text.split a as = [as] := by
  induction as with
  | nil => rfl
  | cons b as ih =>
    rw [List.mem_cons, not_or] at h
    have later := ih h.2
    simp only [Text.split, Text.splitFrom, if_neg (Ne.symm h.1), List.cons.injEq] at later ⊢
    exact ⟨⟨trivial, later.1⟩, later.2⟩

/-- An instruction takes a line, or more if there are line feeds in it. -/
theorem lines_text_eq (code : Code) :
    Text.lines code.text.toList = code.flatMap (fun i => Text.lines i.text.toList) ++ [[]] := by
  induction code with
  | nil => rfl
  | cons i code ih =>
    have text : (Code.text (i :: code)).toList =
        i.text.toList ++ '\n' :: (Code.text code).toList := by
      simp [Code.text]
    rw [Text.lines, text, split_separated, ← Text.lines, ← Text.lines, ih, List.flatMap_cons,
      List.append_assoc]

theorem lines_text (h : ∀ i ∈ code, '\n' ∉ i.text.toList) :
    Text.lines code.text.toList = code.map (fun i => i.text.toList) ++ [[]] := by
  rw [lines_text_eq, List.map_eq_flatMap]
  exact congrArg (· ++ [[]]) (List.flatMap_congr fun i hi => split_of_not_mem (h i hi))

/-- Printed code reads back without its comments. -/
theorem ofText_text (hlf : ∀ i ∈ code, '\n' ∉ i.text.toList) (h : ∀ i ∈ code, i.Worded)
    (hl : ∀ i ∈ code, ∀ o ∈ i.operands, o.Literate) : Code.ofText code.text = .ok code.bare := by
  rw [ofText, ofChars, instructionLines, lines_text hlf]
  generalize 0 = k
  clear hlf
  induction code generalizing k with
  | nil => rfl
  | cons i code ih =>
    have rest := ih (fun j hj => h j (List.mem_cons_of_mem i hj))
      (fun j hj => hl j (List.mem_cons_of_mem i hj)) (k + 1)
    rw [List.map_cons, List.cons_append, List.zipIdx_cons, List.filterMap_cons]
    cases hi : i.isComment with
    | true =>
      cases i <;> cases hi
      next text =>
      obtain ⟨cs, line⟩ := Instruction.trim_comment text
      simp only [line]
      exact rest
    | false =>
      have line := Instruction.trim_text (h i List.mem_cons_self) hi
      have read := Instruction.ofChars_text (h i List.mem_cons_self) (hl i List.mem_cons_self) hi
      obtain ⟨hne, hslashes⟩ := Instruction.text_ne_slashes hi
      have kept : bare (i :: code) = i :: bare code := by simp [bare, hi]
      simp only [line]
      rw [List.mapM_cons, read, kept]
      exact congrArg (fun later => later >>= fun later => Except.ok (i :: later)) rest

end Code

end Assembly

end StackCompiler
