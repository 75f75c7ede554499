/-!
The arguments of the command. Long options may take their value after an equals sign, the short one
also directly; two dashes end the options, and one dash alone is a name like any other.
-/

namespace StackCompiler.CommandLine

/-- What one argument looks like. -/
inductive Argument where
  | word (text : String)
  | long (name : String) (value : Option String)
  | short (letter : Char) (rest : List Char)
  | endOfOptions
deriving Repr, DecidableEq

def Argument.ofText (text : String) : Argument :=
  match text.toList with
  | ['-', '-'] => .endOfOptions
  | '-' :: '-' :: cs =>
    let value := match cs.dropWhile (· ≠ '=') with
      | _ :: v => some (String.ofList v)
      | [] => none
    .long (String.ofList (cs.takeWhile (· ≠ '='))) value
  | '-' :: c :: cs => .short c cs
  | _ => .word text

structure Options where
  listing : Bool := false
  assembly : Bool := false
  run : Bool := false
  output : Option String := none
  exec : Option String := none
  script : Option String := none
deriving Repr, DecidableEq

/-- Arguments that make no sense. -/
inductive Misuse where
  | unexpected (argument : String)
  | repeated (option : String)
  | missingValue (option : String)
  | conflict
deriving Repr, DecidableEq

def Misuse.message : Misuse → String
  | unexpected argument => s!"unexpected argument '{argument}'"
  | repeated option => s!"the option '{option}' cannot be given twice"
  | missingValue option => s!"the option '{option}' needs a value"
  | conflict => "'--exec' cannot be given together with a script"

/-- What the arguments ask for. -/
inductive Request where
  | perform (options : Options)
  | help
  | version
deriving Repr, DecidableEq

/-- Options without a value. -/
inductive Flag where
  | listing | assembly | run
deriving Repr, DecidableEq

/-- Options with a value. -/
inductive PathOption where
  | output | exec
deriving Repr, DecidableEq

namespace Options

/-- No option may be given twice. -/
def raise (o : Options) (name : String) : Flag → Except Misuse Options
  | .listing => if o.listing then .error (.repeated name) else .ok { o with listing := true }
  | .assembly => if o.assembly then .error (.repeated name) else .ok { o with assembly := true }
  | .run => if o.run then .error (.repeated name) else .ok { o with run := true }

/-- No value may be empty. -/
def setPath (o : Options) (name value : String) (path : PathOption) : Except Misuse Options :=
  if value = "" then .error (.missingValue name)
  else
    match path with
    | .output =>
      if o.output.isSome then .error (.repeated name) else .ok { o with output := some value }
    | .exec => if o.exec.isSome then .error (.repeated name) else .ok { o with exec := some value }

def addScript (o : Options) (name : String) : Except Misuse Options :=
  if name = "" then .error (.missingValue "script")
  else if o.script.isSome then .error (.unexpected name)
  else .ok { o with script := some name }

/-- An assembly file is executed instead of a script. -/
def checked (o : Options) : Except Misuse Request :=
  if o.exec.isSome && o.script.isSome then .error .conflict else .ok (.perform o)

end Options

def flag? : String → Option Flag
  | "rpn" => some .listing
  | "asm" => some .assembly
  | "run" => some .run
  | _ => none

def pathOption? : String → Option PathOption
  | "output" => some .output
  | "exec" => some .exec
  | _ => none

/-- The value that follows an option must not look like an option. -/
def isValue (text : String) : Bool :=
  match Argument.ofText text with
  | .word _ => true
  | _ => false

/-- The first mistake counts, and a request for help ends the reading. -/
def parseFrom (o : Options) : List String → Except Misuse Request
  | [] => o.checked
  | arg :: rest =>
    let separate (name : String) (path : PathOption) : Except Misuse Request :=
      match rest with
      | value :: more =>
        if isValue value then do parseFrom (← o.setPath name value path) more
        else .error (.missingValue name)
      | [] => .error (.missingValue name)
    match Argument.ofText arg with
    | .endOfOptions => do (← rest.foldlM Options.addScript o).checked
    | .word name => do parseFrom (← o.addScript name) rest
    | .long "help" none | .short 'h' _ => .ok .help
    | .long "version" none | .short 'V' _ => .ok .version
    | .long name value =>
      match flag? name, pathOption? name, value with
      | some flag, _, none => do parseFrom (← o.raise arg flag) rest
      | _, some path, some value => do parseFrom (← o.setPath arg value path) rest
      | _, some path, none => separate arg path
      | _, _, _ => .error (.unexpected arg)
    | .short 'o' [] => separate arg .output
    | .short 'o' ('=' :: value) => do
      parseFrom (← o.setPath "-o" (String.ofList value) .output) rest
    | .short 'o' value => do parseFrom (← o.setPath "-o" (String.ofList value) .output) rest
    | .short _ _ => .error (.unexpected arg)

def parse (args : List String) : Except Misuse Request := parseFrom {} args

end StackCompiler.CommandLine
