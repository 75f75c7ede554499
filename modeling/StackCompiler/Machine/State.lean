import StackCompiler.Machine.Value
import StackCompiler.Stack
import StackCompiler.Text.Split

/-!
What the machine holds: a stack of values for all calls together, a frame of variables for each
call that is not finished, and a console that outlasts the program.
-/

namespace StackCompiler.Machine

/-- Lines that wait to be read, those that are no text being lost, and what was printed. -/
structure Console where
  input : List (Option String) := []
  output : String := ""
deriving Repr, DecidableEq, Inhabited

/-- Only the frame of the entry function has nowhere to return to. -/
structure Frame where
  returnTo : Option Nat
  slots : List (String × Value) := []

/-- The innermost frame comes first. -/
structure State where
  position : Nat
  values : Stack Value := {}
  frames : List Frame
  console : Console

inductive RunError where
  | missingEntry
  | unknownLabel (label : Label)
  | emptyStack
  | underflow (cause : Underflow)
  | unknownVariable (name : String)
  | badLiteral (text : String)
  | typeMismatch (cause : Mismatch)
  | unknownOperator (position : Nat)
  | noFrame
  | ranOffEnd
  | undecodableInput
deriving Inhabited

def RunError.message : RunError → String
  | missingEntry => "no entry point, expected a function named `_main_` or `main`"
  | unknownLabel label => "jump to unknown label " ++ label.text
  | emptyStack => "pop from an empty value stack"
  | underflow cause => "value stack: " ++ cause.message
  | unknownVariable name => "unknown variable `" ++ name ++ "`"
  | badLiteral text => "`" ++ text ++ "` is neither a number nor a string"
  | typeMismatch cause => cause.message
  | unknownOperator position => s!"instruction {position} is an UNKNOWN operator"
  | noFrame => "no active call frame"
  | ranOffEnd => "ran past the last instruction"
  | undecodableInput => "io error: stream did not contain valid UTF-8"

namespace Console

def ofText (text : String) : Console :=
  { input := (Text.lines text.toList).map fun line => some (String.ofList line) }

/-- Bytes are cut at line feeds first, so that a bad line spoils no other. -/
def ofBytes (bytes : List UInt8) : Console :=
  { input := (Text.split 10 bytes).map fun line => String.fromUTF8? ⟨line.toArray⟩ }

/-- At the end of the input every line is empty. -/
def readLine (c : Console) : Option String × Console :=
  match c.input with
  | [] => (some "", c)
  | line :: rest => (line, { c with input := rest })

def printLine (c : Console) (line : String) : Console :=
  { c with output := c.output ++ line ++ "\n" }

end Console

/-- The value of a variable, if it has one. -/
def lookup (name : String) : List (String × Value) → Option Value
  | [] => none
  | (other, value) :: rest => if other = name then some value else lookup name rest

/-- A variable keeps its place when its value changes. -/
def assign (name : String) (value : Value) : List (String × Value) → List (String × Value)
  | [] => [(name, value)]
  | (other, old) :: rest =>
    if other = name then (name, value) :: rest else (other, old) :: assign name value rest

theorem lookup_assign (name other : String) (value : Value) (slots : List (String × Value)) :
    lookup other (assign name value slots) =
      if name = other then some value else lookup other slots := by
  induction slots with
  | nil => simp [assign, lookup]
  | cons slot rest ih =>
    obtain ⟨key, old⟩ := slot
    by_cases hk : key = name
    · subst hk
      by_cases h : key = other <;> simp [assign, lookup, h]
    · by_cases h : key = other
      · subst h
        simp [assign, lookup, hk, Ne.symm hk]
      · simp [assign, lookup, hk, h, ih]

end StackCompiler.Machine
