import StackCompiler.Assembly.Instruction
import StackCompiler.Decimal.Reader
import StackCompiler.Text.Split

/-!
Reading assembly text. A line is split into words at blanks outside quotes; blank lines and lines
that start with two slashes are skipped.
-/

namespace StackCompiler.Assembly

/-- What is wrong with a line. -/
inductive Fault where
  | unknownInstruction (mnemonic : String)
  | arity (mnemonic : String) (expected found : Nat)
  | label (text : String)
  | expectedPop (text : String)
  | unterminatedString
deriving Repr, DecidableEq

def Fault.message : Fault → String
  | unknownInstruction mnemonic => "unknown instruction `" ++ mnemonic ++ "`"
  | arity mnemonic expected found =>
    "`" ++ mnemonic ++ s!"` takes {expected} operands, found {found}"
  | label text => "invalid label `" ++ text ++ "`"
  | expectedPop text => "expected `pop`, found `" ++ text ++ "`"
  | unterminatedString => "unterminated string"

structure LineFault where
  line : Nat
  fault : Fault
deriving Repr, DecidableEq

def LineFault.message (f : LineFault) : String := s!"line {f.line}: {f.fault.message}"

def isQuote (c : Char) : Bool := c == '"' || c == '\''

/-- The rest of the word at hand and the words after it. Inside quotes everything belongs to the
word, up to the same quote; without that there is no answer. -/
def splitWords : (quote : Option Char) → List Char → Option (List Char × List (List Char))
  | none, [] => some ([], [])
  | some _, [] => none
  | some q, c :: cs =>
    (splitWords (if c = q then none else some q) cs).map fun (word, later) => (c :: word, later)
  | none, c :: cs =>
    (splitWords (if isQuote c then some c else none) cs).map fun (word, later) =>
      if Text.isBlank c then ([], if word.isEmpty then later else word :: later)
      else (c :: word, later)

/-- The words of a line, unless a quote is left open. -/
def words? (cs : List Char) : Option (List (List Char)) :=
  (splitWords none cs).map fun (word, later) => if word.isEmpty then later else word :: later

/-- A literal starts with a quote or is a number; any other word but `pop` is a variable. -/
def Operand.ofWord (word : String) : Operand :=
  if word = "pop" then .pop
  else if word.toList.head?.any isQuote || (Decimal.read? word).isSome then .literal word
  else .slot word

def Target.ofWord (word : String) : Target := if word = "push" then .push else .slot word

def UnaryOp.ofMnemonic? : String → Option UnaryOp
  | "!" => some not
  | "neg" => some neg
  | _ => none

def BinaryOp.ofMnemonic? : String → Option BinaryOp
  | "+" => some add
  | "-" => some sub
  | "*" => some mul
  | "/" => some div
  | "%" => some mod
  | "&" => some and
  | "|" => some or
  | "==" => some eq
  | "!=" => some neq
  | "<" => some less
  | "<=" => some lessEq
  | ">" => some greater
  | ">=" => some greaterEq
  | _ => none

def labelOfWord (word : String) : Except Fault Label :=
  match Label.read? word with
  | some l => .ok l
  | none => .error (.label word)

/-- The number of words, all of which have to be `pop`. -/
def popCount (words : List String) : Except Fault Nat :=
  match words.find? (· != "pop") with
  | some word => .error (.expectedPop word)
  | none => .ok words.length

namespace Instruction

/-- An instruction with a fixed number of operands says how many it takes before it looks at any
of them. -/
def ofMnemonic (mnemonic : String) (args : List String) : Except Fault Instruction :=
  let arity (expected : Nat) : Except Fault Instruction :=
    .error (.arity mnemonic expected args.length)
  match mnemonic with
  | "mov" =>
    match args with
    | [target, source] => .ok (.mov (.ofWord target) (.ofWord source))
    | _ => arity 2
  | "lbl" =>
    match args with
    | [l] => (labelOfWord l).map .label
    | _ => arity 1
  | "jmp" =>
    match args with
    | [l] => (labelOfWord l).map .jump
    | _ => arity 1
  | "jf" =>
    match args with
    | [l, condition] => (labelOfWord l).map fun l => .jumpFalse l (.ofWord condition)
    | _ => arity 2
  | "call" =>
    match args with
    | [l] => (labelOfWord l).map .call
    | _ => arity 1
  | "out" =>
    match args with
    | [] => .ok .out
    | _ => arity 0
  | "prn" => (popCount args).map .print
  | "read" => (popCount args).map .read
  | "UNKNOWN" =>
    if args.getLast? = some "push" then (popCount args.dropLast).map .unknown
    else .error (.arity mnemonic 1 0)
  | _ =>
    match UnaryOp.ofMnemonic? mnemonic, BinaryOp.ofMnemonic? mnemonic with
    | some op, _ =>
      match args with
      | [source, target] => .ok (.unary op (.ofWord source) (.ofWord target))
      | _ => arity 2
    | none, some op =>
      match args with
      | [first, second, target] =>
        .ok (.binary op (.ofWord first) (.ofWord second) (.ofWord target))
      | _ => arity 3
    | none, none => .error (.unknownInstruction mnemonic)

def ofWords : List String → Except Fault Instruction
  | [] => .error (.unknownInstruction "")
  | mnemonic :: args => ofMnemonic mnemonic args

def ofChars (cs : List Char) : Except Fault Instruction :=
  match words? cs with
  | some words => ofWords (words.map String.ofList)
  | none => .error .unterminatedString

def ofText (text : String) : Except Fault Instruction := ofChars text.toList

end Instruction

namespace Code

/-- The lines that hold an instruction, with their numbers and without outer blanks. -/
def instructionLines (cs : List Char) : List (Nat × List Char) :=
  (Text.lines cs).zipIdx.filterMap fun (line, i) =>
    match Text.trim line with
    | [] => none
    | '/' :: '/' :: _ => none
    | text => some (i + 1, text)

/-- The first line that is no instruction decides. -/
def ofChars (cs : List Char) : Except LineFault Code :=
  (instructionLines cs).mapM fun (line, text) => (Instruction.ofChars text).mapError (⟨line, ·⟩)

def ofText (text : String) : Except LineFault Code := ofChars text.toList

end Code

end StackCompiler.Assembly
