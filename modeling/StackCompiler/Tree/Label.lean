import StackCompiler.Text.Blank

/-!
Jump targets. A label is written between two pairs of dollar signs; what stands between them says
what the place is for, at a node of which kind, and which node that is.
-/

namespace StackCompiler

/-- Kinds of tree nodes. -/
inductive NodeKind where
  | program | function | block | assignment | ret | switchExit | loopExit | loop | conditional
  | switch | switchCase | expression | identifier | call | constant
deriving Repr, DecidableEq

def NodeKind.name : NodeKind → String
  | .program => "Program"
  | .function => "Function"
  | .block => "Block"
  | .assignment => "Assignment"
  | .ret => "Return"
  | .switchExit => "Break"
  | .loopExit => "LoopExit"
  | .loop => "Loop"
  | .conditional => "Conditional"
  | .switch => "Switch"
  | .switchCase => "SwitchCase"
  | .expression => "Expression"
  | .identifier => "Identifier"
  | .call => "Call"
  | .constant => "Constant"

/-- The name is what stands between the dollar signs. -/
structure Label where
  name : String
  name_ne : name ≠ ""
deriving Repr, DecidableEq

namespace Label

def text (l : Label) : String := "$$" ++ l.name ++ "$$"

/-- Without a node the label says only what it is for. -/
def forNode (purpose : String) (kind : NodeKind) (node : Option Nat) : Label where
  name := purpose ++ "_" ++ kind.name ++ (match node with
    | some id => "_" ++ toString id
    | none => "")
  name_ne := by
    intro h
    have := congrArg String.toList h
    simp at this

/-- Functions are known by name, so two of one name share their label. -/
def forFunction (name : String) : Label where
  name := "Function_" ++ name
  name_ne := by
    intro h
    have := congrArg String.toList h
    simp at this

/-- Outer blanks do not count, and something must stand between the dollar signs. -/
def ofChars? (cs : List Char) : Option Label :=
  match Text.trim cs with
  | '$' :: '$' :: rest =>
    match rest.reverse with
    | '$' :: '$' :: c :: before =>
      let name := String.ofList (before.reverse ++ [c])
      if h : name = "" then none else some ⟨name, h⟩
    | _ => none
  | _ => none

def read? (text : String) : Option Label := ofChars? text.toList

/-- What is said about a text that is no label. -/
def refusal (text : String) : String := "invalid label: " ++ String.ofList (Text.trim text.toList)

theorem text_injective {l m : Label} (h : l.text = m.text) : l = m := by
  have h := congrArg String.toList h
  simp only [text, String.toList_append, List.append_cancel_right_eq, List.append_cancel_left_eq]
    at h
  cases l; cases m
  simpa using String.toList_injective h

end Label

end StackCompiler
