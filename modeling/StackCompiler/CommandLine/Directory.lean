import StackCompiler.CommandLine.Command
import StackCompiler.Text.Split

/-!
A directory that is held in memory, and how paths lead to its files.
-/

namespace StackCompiler.CommandLine

/-- The names on the way to a file, from the directory at hand. -/
abbrev Path := List String

/-- Files with their texts; a directory is there if it is on the way to some file. -/
structure Directory where
  files : List (Path × String) := []
deriving Repr, DecidableEq

/-- What a path leads to. -/
inductive Entry where
  | directory
  | file (text : String)
deriving Repr, DecidableEq

namespace Directory

/-- Outside are only the directories around this one. -/
def entry? (d : Directory) (path : Path) : Option Entry :=
  if path.all (· == "..") then some .directory
  else
    match d.files.lookup path with
    | some text => some (.file text)
    | none => if d.files.any fun (file, _) => path.isPrefixOf file then some .directory else none

/-- Going up from this directory leads outside. -/
def parent (path : Path) : Path := if path.all (· == "..") then ".." :: path else path.dropLast

/-- Goes on from a place that has to be a directory. A name may have 255 bytes. -/
def child (d : Directory) (place : Path) (name : String) : Except FileError Path :=
  match d.entry? place with
  | none => .error .missing
  | some (.file _) => .error .notDirectory
  | some .directory =>
    if 255 < name.utf8ByteSize then .error .nameTooLong
    else if name = "" ∨ name = "." then .ok place
    else if name = ".." then .ok (parent place)
    else .ok (place ++ [name])

def names (path : String) : List String := (Text.split '/' path.toList).map String.ofList

/-- A path may have 4095 bytes, whatever it leads to. -/
def way (path : String) : Except FileError (List String) :=
  if 4095 < path.utf8ByteSize then .error .nameTooLong else .ok (names path)

/-- A path whose first name is empty starts with a slash, which means outside. -/
def walk (d : Directory) : List String → Except FileError Path
  | "" :: rest => rest.foldlM d.child [".."]
  | relative => relative.foldlM d.child []

def read (d : Directory) (path : String) : Except FileError String := do
  match d.entry? (← d.walk (← way path)) with
  | some (.file text) => .ok text
  | some .directory => .error .isDirectory
  | none => .error .missing

/-- A new text takes the place of an old one. -/
def put (path : Path) (text : String) : List (Path × String) → List (Path × String)
  | [] => [(path, text)]
  | (other, old) :: rest =>
    if other = path then (path, text) :: rest else (other, old) :: put path text rest

/-- The way to the directory that the last name of a path stands in; slashes may follow that
name. -/
def around (names : List String) : List String :=
  (names.reverse.dropWhile (· == "")).tail.reverse ++ ["."]

/-- A path that ends in a slash names a directory, whether it is there or not. -/
def write (d : Directory) (path text : String) : Except FileError Directory := do
  let names ← way path
  if names.getLast? = some "" then
    let _ ← d.walk (around names)
    throw .isDirectory
  let place ← d.walk names
  match d.entry? place with
  | some .directory => throw .isDirectory
  | _ => return { files := put place text d.files }

end Directory

end StackCompiler.CommandLine
