import StackCompiler.Tree.Label
import StackCompiler.Tree.Operator

/-!
Reverse-Polish listings: words in evaluation order, one line to a statement or to a part of one.
-/

namespace StackCompiler.Listing

inductive Word where
  /-- The name of a variable or the literal of a constant. -/
  | operand (text : String)
  | operator (op : Operator)
  | call (name : String)
  | assign
  | or
  | define (label : Label)
  | ref (label : Label)
  | jump
  | jumpElse
  | stepIn
  | stepOut
  | ret
deriving Repr, DecidableEq

inductive Line where
  | code (words : List Word)
  | comment (text : String)
  | blank
deriving Repr, DecidableEq

def Word.text : Word → String
  | operand text => text
  | operator op => op.symbol
  | call name => "call(" ++ name ++ ")"
  | assign => "="
  | or => "||"
  | define label => label.text ++ ":"
  | ref label => label.text
  | jump => "jump"
  | jumpElse => "jumpElse"
  | stepIn => "stepInto"
  | stepOut => "stepOut"
  | ret => "return"

def Line.text : Line → String
  | code words => " ".intercalate (words.map Word.text)
  | comment text => "// " ++ text
  | blank => ""

/-- Only lines of code have words. -/
def Line.words : Line → List Word
  | code words => words
  | _ => []

/-- Every line ends in a line feed. -/
def text (lines : List Line) : String := String.join (lines.map fun line => line.text ++ "\n")

/-- All words in order, whatever their lines. -/
def words (lines : List Line) : List Word := lines.flatMap Line.words

end StackCompiler.Listing
