import StackCompiler.Tree.Expression
import StackCompiler.Tree.Label

/-!
Statements, functions and programs. Fields that may still be missing are optional, since a tree is
also a value while it is being built.
-/

namespace StackCompiler

structure Assignment where
  id : Nat
  target : String := ""
  value : Option Expression := none

structure Return where
  id : Nat
  value : Option Expression := none

/-- Leaves the switch that has the target's id, if there was one around it. -/
structure SwitchExit where
  id : Nat
  target : Option Nat

/-- Leaves the loop that has the target's id, if there was one around it. -/
structure LoopExit where
  id : Nat
  target : Option Nat

mutual

inductive Statement where
  | assignment (a : Assignment)
  | block (b : Block)
  | conditional (c : Conditional)
  | loop (l : Loop)
  | switch (s : Switch)
  | switchExit (e : SwitchExit)
  | loopExit (e : LoopExit)
  | ret (r : Return)
  | call (c : Call)

structure Block where
  id : Nat
  statements : List Statement

structure Conditional where
  id : Nat
  condition : Option Expression
  thenBlock : Option Block
  elseBlock : Option Block

/-- Counts its variable up from `start` to `stop`, which is included. -/
structure Loop where
  id : Nat
  var : String
  start : Option Expression
  stop : Option Expression
  increment : Option Expression
  body : Option Block

/-- The body runs if the scrutinee equals one of the values. -/
structure SwitchCase where
  id : Nat
  values : List Expression
  body : Option Block

/-- Once the default is announced, a finished block becomes the default and not the body of a
case. -/
structure Switch where
  id : Nat
  scrutinee : Option Expression
  cases : List SwitchCase
  fallback : Option Block
  fallbackSeen : Bool

end

structure Function where
  id : Nat
  name : String := ""
  params : List String := []
  body : Option Block := none

structure Program where
  id : Nat
  functions : List Function := []

def Block.empty (id : Nat) : Block := ⟨id, []⟩

def Conditional.empty (id : Nat) : Conditional := ⟨id, none, none, none⟩

def Loop.empty (id : Nat) : Loop := ⟨id, "", none, none, none, none⟩

def Switch.empty (id : Nat) : Switch := ⟨id, none, [], none, false⟩

/-- A case has at least one value. -/
def SwitchCase.first (id : Nat) (value : Expression) : SwitchCase := ⟨id, [value], none⟩

/-- Where the condition sends control if it fails. -/
def Conditional.elseLabel (c : Conditional) : Label := .forNode "Else" .conditional (some c.id)

def Conditional.exitLabel (c : Conditional) : Label := .forNode "Exit" .conditional (some c.id)

def Loop.conditionLabel (l : Loop) : Label := .forNode "Condition" .loop (some l.id)

def Loop.exitLabel (l : Loop) : Label := .forNode "Exit" .loop (some l.id)

def Switch.exitLabel (s : Switch) : Label := .forNode "Exit" .switch (some s.id)

/-- Where a scrutinee that equals none of the values goes on. -/
def SwitchCase.skipLabel (c : SwitchCase) : Label := .forNode "Skip" .switchCase (some c.id)

def SwitchExit.targetLabel (e : SwitchExit) : Label := .forNode "Exit" .switch e.target

def LoopExit.targetLabel (e : LoopExit) : Label := .forNode "Exit" .loop e.target

def Function.label (f : Function) : Label := .forFunction f.name

/-- What a comment before the code of the function says. -/
def Function.heading (f : Function) : String :=
  "function " ++ f.name ++ " (" ++ ", ".intercalate f.params ++ ")"

def Function.ending (f : Function) : String := "end function " ++ f.name

end StackCompiler
