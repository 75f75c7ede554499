import StackCompiler.Proofs.Assembly.Quotation
import StackCompiler.Proofs.Construction.Inventory
import StackCompiler.Proofs.Machine.Comments
import StackCompiler.Proofs.Script.Evaluated

/-!
Quoted text from a line of a script to the value that the machine pushes for it.
-/

namespace StackCompiler.Script

open Assembly Text

variable {q : Char} {s : String} {cs : List Char}

/-- Between quotes there is no comment. -/
theorem stripComment_closed (h : q ∉ cs) : stripComment (some q) (cs ++ [q]) = cs ++ [q] := by
  induction cs with
  | nil => simp [stripComment]
  | cons c cs ih =>
    rw [List.mem_cons, not_or] at h
    rw [List.cons_append, stripComment, if_neg (Ne.symm h.1), ih h.2]

theorem stripComment_enclosed (h : Quotable q s) :
    stripComment none (enclosed q s).toList = (enclosed q s).toList := by
  rw [toList_enclosed]
  obtain rfl | rfl := h.mark
  · simp [stripComment, stripComment_closed h.closed]
  · simp [stripComment, stripComment_closed h.closed]

/-- The line that gives the text. -/
def literalLine (q : Char) (s : String) : String := "literal " ++ enclosed q s

theorem toList_literalLine :
    (literalLine q s).toList = "literal ".toList ++ (enclosed q s).toList := String.toList_append

theorem newline_not_mem_literalLine (h : Quotable q s) : '\n' ∉ (literalLine q s).toList := by
  rw [toList_literalLine, List.mem_append, not_or]
  exact ⟨by decide, h.newline_not_mem⟩

theorem trim_literalLine (h : Quotable q s) :
    Text.trim (literalLine q s).toList = (literalLine q s).toList := by
  have words : (literalLine q s).toList =
      [' '].intercalate ["literal".toList, (enclosed q s).toList] := by
    rw [toList_literalLine, List.intercalate_cons_cons, List.intercalate_singleton]
    rfl
  rw [words]
  refine trim_intercalate fun w hw => ?_
  simp only [List.mem_cons, List.not_mem_nil, or_false] at hw
  obtain rfl | rfl := hw
  · decide
  · exact isWord_enclosed h

/-- All of the text is the argument of the line. -/
theorem ofChars?_literalLine (h : Quotable q s) (number : Nat) :
    Line.ofChars? number (literalLine q s).toList =
      some ⟨number, "literal", some (enclosed q s)⟩ := by
  have stripped : stripComment none (literalLine q s).toList = (literalLine q s).toList := by
    rw [toList_literalLine]
    exact congrArg ("literal ".toList ++ ·) (stripComment_enclosed h)
  have first : Text.splitFirst (literalLine q s).toList =
      ("literal".toList, some (enclosed q s).toList) := by
    rw [toList_literalLine]
    rfl
  have filled : (literalLine q s).toList.isEmpty = false := by
    rw [toList_literalLine]
    rfl
  have argument : nonempty? (Text.trim (enclosed q s).toList) = some (enclosed q s) := by
    rw [(isWord_enclosed h).trim, nonempty?, String.ofList_toList, toList_enclosed]
    rfl
  unfold Line.ofChars?
  dsimp only
  rw [stripped, trim_literalLine h, filled, first]
  dsimp only [Option.bind_some]
  rw [argument, String.ofList_toList]
  rfl

/-- The lines of a text, where so many come before it. -/
def linesFrom (number : Nat) (source : String) : List Line :=
  ((Text.lines source.toList).zipIdx number).filterMap fun x => Line.ofChars? (x.2 + 1) x.1

theorem linesFrom_append (number : Nat) (first rest : String) :
    linesFrom number (first ++ "\n" ++ rest) = linesFrom number first ++
      linesFrom (number + (Text.lines first.toList).length) rest := by
  have cut : Text.lines (first ++ "\n" ++ rest).toList =
      Text.lines first.toList ++ Text.lines rest.toList := by
    rw [String.toList_append, String.toList_append, List.append_assoc]
    exact Code.split_separated '\n' first.toList rest.toList
  rw [linesFrom, cut, List.zipIdx_append, List.filterMap_append]
  rfl

theorem linesFrom_literalLine (h : Quotable q s) (number : Nat) :
    linesFrom number (literalLine q s) = [⟨number + 1, "literal", some (enclosed q s)⟩] := by
  rw [linesFrom, Text.lines, Code.split_of_not_mem (newline_not_mem_literalLine h)]
  simp [ofChars?_literalLine h]

variable {st st' : State} {before after : String}

/-- A script with such a line comes to it, takes it and goes on. -/
theorem lines_around (h : Quotable q s) (start : (lines before).foldlM State.line {} = .ok st)
    (run : (lines (before ++ "\n" ++ literalLine q s ++ "\n" ++ after)).foldlM State.line {} =
      .ok st') : ∃ ls : List Line, ls.foldlM State.line
        { st with construction := st.construction.appendLiteral (enclosed q s) } = .ok st' := by
  change (linesFrom 0 _).foldlM State.line {} = .ok st' at run
  rw [linesFrom_append, linesFrom_append, linesFrom_literalLine h, List.append_assoc,
    List.foldlM_append] at run
  change (linesFrom 0 before).foldlM State.line {} = .ok st at start
  rw [start] at run
  -- What the line does to the state is a matter of computation.
  exact ⟨_, run⟩

/-- Whatever the lines do, they do it by moves. -/
theorem moves_of_lines {ls : List Line} (run : ls.foldlM State.line st = .ok st') :
    Moves (.any fun _ => True) st.stock st'.stock :=
  moves_lines (fun _ _ _ hd => within_of_texts hd (fun _ => trivial) (fun _ _ => trivial) trivial)
    run

/-- Numbers are given once, so that the constant with the number that the line gave has its text. -/
theorem literal_of_constant (h : Quotable q s) {f : Expression} {c : Constant}
    (start : (lines before).foldlM State.line {} = .ok st)
    (fed : .expression f ∈ st.construction.items)
    (run : (lines (before ++ "\n" ++ literalLine q s ++ "\n" ++ after)).foldlM State.line {} =
      .ok st')
    (there : .constant c ∈ st'.stock.holdings) (hc : c.id = st.construction.nextId) :
    c.literal = enclosed q s := by
  obtain ⟨ls, rest⟩ := lines_around h start run
  obtain ⟨next, holdings⟩ := Construction.holdings_appendLiteral h.head_ne st.held fed
  have old := (moves_of_lines start).gained.2
  have new := (moves_of_lines rest).gained.2 _ there
  rw [State.stock, next] at new
  obtain new | ⟨later, -⟩ := new
  · obtain same | before := (holdings _).mp new
    · exact congrArg Constant.literal (Holding.constant.inj same)
    · obtain none | ⟨-, earlier⟩ := old _ before
      · cases none
      · exact absurd hc (Nat.ne_of_lt earlier)
  · exact absurd hc (Nat.ne_of_gt later)

/-- Wherever the code stands, it pushes the value and goes on behind itself. Printed, it is read as
what it is, whatever it stands between. -/
structure Pushes (part : Code) (v : Machine.Value) : Prop where
  runs : ∀ (left right : Code) (m : Machine.State), m.position = left.length →
    Machine.step (left ++ part ++ right) m =
      .running { m.push v with position := (left ++ part).length }
  reads : ∀ left right read : Code, Code.ofText (Code.text (left ++ part ++ right)) = .ok read ↔
    ∃ left' right', Code.ofText left.text = .ok left' ∧ Code.ofText right.text = .ok right' ∧
      read = left' ++ part ++ right'

theorem pushes_pushText (h : Quotable q s) : Pushes [pushText q s] (.str s) where
  runs left right m hm := by
    have here : (left ++ [pushText q s] ++ right)[m.position]? = some (pushText q s) := by
      simp [hm]
    rw [step_pushText h here, List.length_append, ← hm]
    rfl
  reads left right read := by
    simpa using ofText_pushText h

theorem expression_constant {e : Expression} {c : Constant} (h : Quotable q s)
    (alone : e.tokens = [.leaf (.constant c)]) (hc : c.literal = enclosed q s) :
    lowering.expression e = [pushText q s] := by
  have order : e.order = [.operand (.constant c)] := by
    rw [Expression.order, evaluationOrder, alone]
    rfl
  rw [expression_eq, order]
  change [Instruction.mov .push (.literal (decodeConstant c.literal))] = _
  rw [hc, decodeConstant_enclosed h]
  rfl

/-- The line stands between these two parts of a script that replays. Where it stands an expression
is open, and the constant with the next number is all that `e` has in the program. -/
structure FeedsAlone (before line after : String) (built : Built) (e : Expression) : Prop where
  replays : replay (before ++ "\n" ++ line ++ "\n" ++ after) = .ok built
  inside : .expression e ∈ (Node.program built.program).subtree
  fed : ∃ st f c, (lines before).foldlM State.line {} = .ok st ∧
    .expression f ∈ st.construction.items ∧ e.tokens = [.leaf (.constant c)] ∧
      c.id = st.construction.nextId

/-- What is fed with quoted text has the text as its code. -/
theorem FeedsAlone.expression {built : Built} {e : Expression} (h : Quotable q s)
    (fed : FeedsAlone before (literalLine q s) after built e) :
    lowering.expression e = [pushText q s] := by
  obtain ⟨replays, inside, st, f, c, start, opened, alone, number⟩ := fed
  obtain ⟨last, ends⟩ := replay_eq_ok replays
  have there : .constant c ∈ last.stock.holdings := by
    rw [ends.stock, Stock.mem_holdings]
    refine .inl ⟨_, List.mem_singleton_self _, List.mem_flatMap.mpr ⟨_, inside, ?_⟩⟩
    rw [Node.ownHoldings, alone]
    exact List.mem_singleton_self _
  exact expression_constant h alone (literal_of_constant h start opened ends.1 there number)

/-- What comes before a value that the main function returns. -/
def returnBefore : String :=
  "begin-program\n" ++ "begin-function\n" ++ "name main\n" ++ "begin-block\n" ++
  "begin-return\n" ++ "begin-expression"

def returnAfter : String :=
  "end-expression\n" ++ "attach\n" ++ "attach\n" ++ "attach\n" ++ "attach\n"

def returnProgram (l : Leaf) : Program where
  id := 0
  functions := [
    { id := 1
      name := "main"
      body := some ⟨2, [.ret ⟨3, some ⟨4, [.leaf l]⟩⟩]⟩ }]

theorem linesFrom_returnBefore : linesFrom 0 returnBefore = [
    ⟨1, "begin-program", none⟩, ⟨2, "begin-function", none⟩, ⟨3, "name", some "main"⟩,
    ⟨4, "begin-block", none⟩, ⟨5, "begin-return", none⟩, ⟨6, "begin-expression", none⟩] := by
  unfold linesFrom returnBefore
  simp only [String.toList_append]
  rfl

theorem linesFrom_returnAfter (number : Nat) : linesFrom number returnAfter = [
    ⟨number + 1, "end-expression", none⟩, ⟨number + 2, "attach", none⟩,
    ⟨number + 3, "attach", none⟩, ⟨number + 4, "attach", none⟩, ⟨number + 5, "attach", none⟩] := by
  unfold linesFrom returnAfter
  simp only [String.toList_append]
  rfl

theorem replay_returned (h : Quotable q s) :
    replay (returnBefore ++ "\n" ++ literalLine q s ++ "\n" ++ returnAfter) =
      .ok ⟨returnProgram (.constant ⟨5, enclosed q s⟩), []⟩ := by
  have leaf : Construction.literalLeaf 5 (enclosed q s) = .constant ⟨5, enclosed q s⟩ :=
    if_neg h.head_ne
  rw [← leaf]
  unfold replay
  change (linesFrom 0 _).foldlM State.line {} >>= _ = _
  rw [linesFrom_append, linesFrom_append, linesFrom_literalLine h, linesFrom_returnBefore,
    linesFrom_returnAfter]
  rfl

def returnCode (q : Char) (s : String) : Code := [
  .comment "function main ()", .label (.forFunction "main"), pushText q s, .out,
  .comment "end function main"]

theorem ofProgram_returned (h : Quotable q s) :
    ofProgram (returnProgram (.constant ⟨5, enclosed q s⟩)) = returnCode q s := by
  have push : pushText q s = .mov .push (.literal (decodeConstant (enclosed q s))) := by
    rw [decodeConstant_enclosed h, pushText]
  rw [returnCode, push]
  rfl

/-- Without its comments the code reads back. -/
theorem ofText_returnCode (h : Quotable q s) :
    Code.ofText (returnCode q s).text = .ok (returnCode q s).bare := by
  have before : Code.ofText (Code.text
      [.comment "function main ()", .label (.forFunction "main")]) =
        .ok [.label (.forFunction "main")] := by decide +kernel
  have after : Code.ofText (Code.text [.out, .comment "end function main"]) = .ok [.out] := by
    decide +kernel
  have parts : returnCode q s = [.comment "function main ()", .label (.forFunction "main")] ++
      pushText q s :: [.out, .comment "end function main"] := rfl
  rw [parts, ofText_pushText h]
  exact ⟨_, _, before, after, rfl⟩

/-- The main function returns the text. -/
theorem ends_returnCode (h : Quotable q s) (console : Machine.Console) :
    Machine.Ends (returnCode q s) console (.ok (.str s)) console := by
  have start : Machine.start (returnCode q s) console =
      .running { position := 2, frames := [⟨none, []⟩], console } := rfl
  have here : (returnCode q s)[2]? = some (pushText q s) := rfl
  refine ⟨2, ?_⟩
  rw [start, Machine.resume, step_pushText h here]
  rfl

/-- Quoted text reaches the machine as it is, whatever stands between the quotes. A script that
returns it runs to it, and so does the printed code when it has been read again. And whatever script
has such a line, the expression that has nothing but this in the end has code that pushes the text,
both as it is and when it has been printed and read again, and where the expression is evaluated
this code is in the code of the program. -/
theorem replay_literal (h : Quotable q s) :
    (∃ built read, replay (returnBefore ++ "\n" ++ literalLine q s ++ "\n" ++ returnAfter) =
        .ok built ∧
      Code.ofText (Code.text (ofProgram built.program)) = .ok read ∧
        ∀ console, Machine.Ends (ofProgram built.program) console (.ok (.str s)) console ∧
          Machine.Ends read console (.ok (.str s)) console) ∧
      ∀ {before after : String} {built : Built} {e : Expression},
        FeedsAlone before (literalLine q s) after built e →
          Pushes (lowering.expression e) (.str s) ∧
            ((Node.program built.program).Evaluates (.expression e) →
              lowering.expression e <:+: ofProgram built.program) := by
  constructor
  · refine ⟨_, (returnCode q s).bare, replay_returned h, ?_, fun console => ?_⟩
    · rw [ofProgram_returned h]
      exact ofText_returnCode h
    · rw [ofProgram_returned h]
      exact ⟨ends_returnCode h console, (ends_returnCode h console).bare⟩
  · intro before after built e fed
    constructor
    · rw [fed.expression h]
      exact pushes_pushText h
    · intro evaluated
      obtain ⟨_, _, part⟩ :=
        evaluated.code (replay_every (kept_hasValues _) fed.replays) none (Label.forFunction "")
      exact part

/-- A number sign, a comment mark, the other quote and blanks of all kinds. -/
def quotedText : String := "# \"x\" // \r\u3000y "

def quotedExpression : Expression where
  id := 4
  tokens := [.leaf (.constant ⟨5, enclosed '\'' quotedText⟩)]

def quotedProgram : Program := returnProgram (.constant ⟨5, enclosed '\'' quotedText⟩)

theorem replay_literal_quoted : Quotable '\'' quotedText ∧
    Pushes (lowering.expression quotedExpression) (.str quotedText) ∧
      lowering.expression quotedExpression <:+: ofProgram quotedProgram := by
  have quotable : Quotable '\'' quotedText := ⟨.inr rfl, by decide, by decide⟩
  have inside : .expression quotedExpression ∈ (Node.program quotedProgram).subtree :=
    Node.child_mem_subtree
      (Node.child_mem_subtree
        (Node.child_mem_subtree
          (Node.child_mem_subtree (Node.self_mem_subtree _) (.head _)) (.head _)) (.head _))
      (.head _)
  have fed : FeedsAlone returnBefore (literalLine '\'' quotedText) returnAfter
      ⟨quotedProgram, []⟩ quotedExpression := by
    refine ⟨replay_returned quotable, inside, ?_⟩
    change ∃ st f c, (linesFrom 0 returnBefore).foldlM State.line {} = .ok st ∧ _
    rw [linesFrom_returnBefore]
    exact ⟨_, .empty 4, _, rfl, .head _, rfl, rfl⟩
  have evaluated : (Node.program quotedProgram).Evaluates (.expression quotedExpression) :=
    .inner (.head _) (.inner (.head _) (.inner (.head _) (.inner (.head _) (.self _))))
  obtain ⟨pushes, part⟩ := (replay_literal quotable).2 fed
  exact ⟨quotable, pushes, part evaluated⟩

end StackCompiler.Script
