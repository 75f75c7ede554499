import StackCompiler.Proofs.Assembly.Lines
import StackCompiler.Proofs.Assembly.Reading
import StackCompiler.Proofs.Machine.Effect

/-!
Quoted text in code. It is one word whatever it holds between the quotes, and an instruction that
pushes it does so on either side of its printed form.
-/

namespace StackCompiler

namespace Text

/-- The text between two quotes. -/
def enclosed (quote : Char) (text : String) : String :=
  String.ofList (quote :: (text.toList ++ [quote]))

/-- The text fits on a line, and its quotes end where it ends. -/
structure Quotable (quote : Char) (text : String) : Prop where
  mark : quote = '"' ∨ quote = '\''
  closed : quote ∉ text.toList
  line : '\n' ∉ text.toList

variable {q : Char} {s : String}

theorem toList_enclosed : (enclosed q s).toList = q :: (s.toList ++ [q]) := String.toList_ofList

theorem Quotable.newline_not_mem (h : Quotable q s) : '\n' ∉ (enclosed q s).toList := by
  have other : q ≠ '\n' := by
    obtain rfl | rfl := h.mark <;> decide
  simp [toList_enclosed, h.line, other.symm]

/-- Quoted text is no name of a variable. -/
theorem Quotable.head_ne (h : Quotable q s) : (enclosed q s).toList.head? ≠ some '_' := by
  rw [toList_enclosed]
  obtain rfl | rfl := h.mark <;> simp

end Text

open Text

namespace Assembly

variable {q : Char} {s : String}

theorem isQuote_of_quotable (h : Quotable q s) : isQuote q = true := by
  obtain rfl | rfl := h.mark <;> rfl

theorem isWord_enclosed (h : Quotable q s) : IsWord (enclosed q s).toList := by
  rw [toList_enclosed]
  refine isWord_of_splitWords (List.cons_ne_nil _ _) ?_
  have quote := isQuote_of_quotable h
  rw [splitWords_cons, quoteAfter, if_pos quote, splitWords_closed h.closed]
  simp [isBlank_of_isQuote quote]

/-- Quoted text is no number. -/
theorem decodeConstant_enclosed (h : Quotable q s) :
    decodeConstant (enclosed q s) = enclosed q s := by
  unfold decodeConstant
  rw [toList_enclosed]
  obtain rfl | rfl := h.mark <;> rfl

theorem ofLiteral?_enclosed (h : Quotable q s) :
    Machine.Value.ofLiteral? (enclosed q s) = some (.str s) := by
  unfold Machine.Value.ofLiteral?
  rw [toList_enclosed]
  simp [h.mark]

/-- Pushes the text. -/
def pushText (q : Char) (s : String) : Instruction := .mov .push (.literal (enclosed q s))

theorem worded_pushText (h : Quotable q s) : (pushText q s).Worded := ⟨trivial, isWord_enclosed h⟩

theorem literate_pushText (h : Quotable q s) : ∀ o ∈ (pushText q s).operands, o.Literate := by
  intro o ho
  rw [List.mem_singleton.mp ho]
  left
  rw [startsQuoted, toList_enclosed]
  exact isQuote_of_quotable h

theorem newline_not_mem_pushText (h : Quotable q s) : '\n' ∉ (pushText q s).text.toList := by
  refine Instruction.newline_not_mem_text fun w hw => ?_
  simp only [pushText, Instruction.words, Target.text, Operand.text, List.mem_cons,
    List.not_mem_nil, or_false] at hw
  obtain rfl | rfl | rfl := hw
  · decide
  · decide
  · exact h.newline_not_mem

/-- The text is pushed by one step, which changes nothing else. -/
theorem step_pushText (h : Quotable q s) {code : Code} {m : Machine.State}
    (here : code[m.position]? = some (pushText q s)) :
    Machine.step code m = (m.push (.str s)).next := by
  rw [Machine.step, here]
  simp [pushText, Machine.State.execute, Machine.State.load, ofLiteral?_enclosed h,
    Machine.State.andThen, Machine.State.store, Bind.bind, Except.bind]

namespace Code

/-- What stands on a line that is neither blank nor a comment. -/
def lineText? (line : List Char) : Option (List Char) :=
  match Text.trim line with
  | [] => none
  | '/' :: '/' :: _ => none
  | text => some text

/-- The lines hold the code, whatever their numbers are. -/
inductive Reads : List (List Char) → Code → Prop where
  | nil : Reads [] []
  | skip {line ls code} (blank : lineText? line = none) (rest : Reads ls code) :
      Reads (line :: ls) code
  | instruction {line ls text i code} (filled : lineText? line = some text)
      (read : Instruction.ofChars text = .ok i) (rest : Reads ls code) :
      Reads (line :: ls) (i :: code)

theorem instructionLines_eq (cs : List Char) : instructionLines cs =
    (Text.lines cs).zipIdx.filterMap fun x => (lineText? x.1).map (x.2 + 1, ·) := by
  unfold instructionLines
  congr 1
  funext ⟨line, i⟩
  dsimp only [lineText?]
  split <;> simp [*]

theorem mapError_eq_ok {ε ε' α : Type} {result : Except ε α} {f : ε → ε'} {a : α}
    (h : result.mapError f = .ok a) : result = .ok a := by
  cases result <;> cases h
  rfl

theorem ofText_eq_ok_iff {text : String} {code : Code} :
    ofText text = .ok code ↔ Reads (Text.lines text.toList) code := by
  rw [ofText, ofChars, instructionLines_eq]
  generalize Text.lines text.toList = ls
  generalize 0 = number
  induction ls generalizing number code with
  | nil =>
    constructor
    · intro h
      cases h
      exact .nil
    · rintro ⟨⟩
      rfl
  | cons l ls ih =>
    rw [List.zipIdx_cons, List.filterMap_cons]
    dsimp only
    cases hl : lineText? l with
    | none =>
      refine (ih (number + 1)).trans ⟨fun h => Reads.skip hl h, fun h => ?_⟩
      cases h with
      | skip _ rest => exact rest
      | instruction filled => rw [hl] at filled; cases filled
    | some text =>
      dsimp only [Option.map_some]
      rw [List.mapM_cons]
      constructor
      · intro h
        obtain ⟨i, hi, h⟩ := Machine.bind_eq_ok h
        obtain ⟨rest, hr, h⟩ := Machine.bind_eq_ok h
        cases h
        exact .instruction hl (mapError_eq_ok hi) ((ih (number + 1)).mp hr)
      · intro h
        cases h with
        | skip blank => rw [hl] at blank; cases blank
        | instruction filled read rest =>
          rw [hl] at filled
          cases filled
          rw [read, (ih (number + 1)).mpr rest]
          rfl

theorem reads_append {ls ls' : List (List Char)} {code : Code} : Reads (ls ++ ls') code ↔
    ∃ first last, Reads ls first ∧ Reads ls' last ∧ code = first ++ last := by
  constructor
  · intro h
    induction ls generalizing code with
    | nil => exact ⟨[], code, .nil, h, rfl⟩
    | cons l ls ih =>
      cases h with
      | skip blank rest =>
        obtain ⟨first, last, hf, hl, rfl⟩ := ih rest
        exact ⟨first, last, .skip blank hf, hl, rfl⟩
      | instruction filled read rest =>
        obtain ⟨first, last, hf, hl, rfl⟩ := ih rest
        exact ⟨_ :: first, last, .instruction filled read hf, hl, rfl⟩
  · rintro ⟨first, last, hf, hl, rfl⟩
    induction hf with
    | nil => exact hl
    | skip blank _ ih => exact .skip blank ih
    | instruction filled read _ ih => exact .instruction filled read ih

theorem reads_blank {ls : List (List Char)} {code : Code} :
    Reads (ls ++ [[]]) code ↔ Reads ls code := by
  rw [reads_append]
  constructor
  · rintro ⟨first, last, hf, hl, rfl⟩
    cases hl with
    | skip _ rest =>
      cases rest
      rwa [List.append_nil]
    | instruction filled => cases filled
  · exact fun h => ⟨code, [], h, .skip rfl .nil, (List.append_nil code).symm⟩

/-- What is printed piece by piece is read piece by piece. -/
theorem ofText_text_append {first last read : Code} :
    ofText (Code.text (first ++ last)) = .ok read ↔ ∃ first' last',
      ofText first.text = .ok first' ∧ ofText last.text = .ok last' ∧ read = first' ++ last' := by
  simp only [ofText_eq_ok_iff, lines_text_eq, reads_blank]
  rw [List.flatMap_append, reads_append]

end Code

/-- Around the instruction the rest of the code is read as if it stood alone. -/
theorem ofText_pushText (h : Quotable q s) {left right read : Code} :
    Code.ofText (Code.text (left ++ pushText q s :: right)) = .ok read ↔ ∃ left' right',
      Code.ofText left.text = .ok left' ∧ Code.ofText right.text = .ok right' ∧
        read = left' ++ pushText q s :: right' := by
  have alone : Code.ofText (Code.text [pushText q s]) = .ok [pushText q s] :=
    Code.ofText_text (by simpa using newline_not_mem_pushText h) (by simpa using worded_pushText h)
      (by simpa using literate_pushText h)
  rw [← List.singleton_append, Code.ofText_text_append]
  simp only [Code.ofText_text_append, alone]
  constructor
  · rintro ⟨left', _, hl, ⟨_, right', ⟨⟩, hr, rfl⟩, rfl⟩
    exact ⟨left', right', hl, hr, rfl⟩
  · rintro ⟨left', right', hl, hr, rfl⟩
    exact ⟨left', _, hl, ⟨_, right', rfl, hr, rfl⟩, rfl⟩

end Assembly

end StackCompiler
