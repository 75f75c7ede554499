/-!
Blanks and the pieces of a line between them. A blank is a character of the Unicode class
White_Space; a text without its outer blanks neither starts nor ends with one, and the fields of a
line are its longest runs without a blank.
-/

namespace StackCompiler.Text

/-- Unicode gives White_Space to these code points only; the zero-width space is not among them. -/
def isBlank (c : Char) : Bool :=
  let n := c.toNat
  (9 ≤ n && n ≤ 13) || n == 0x20 || n == 0x85 || n == 0xa0 || n == 0x1680 ||
    (0x2000 ≤ n && n ≤ 0x200a) || n == 0x2028 || n == 0x2029 || n == 0x202f || n == 0x205f ||
    n == 0x3000

def trimStart (cs : List Char) : List Char := cs.dropWhile isBlank

def trimEnd (cs : List Char) : List Char := (cs.reverse.dropWhile isBlank).reverse

/-- Only outer blanks go; those between two other characters stay. -/
def trim (cs : List Char) : List Char := trimEnd (trimStart cs)

theorem mem_of_mem_trim {c : Char} {cs : List Char} (h : c ∈ trim cs) : c ∈ cs := by
  unfold trim trimEnd trimStart at h
  rw [List.mem_reverse] at h
  have inner := (List.dropWhile_suffix isBlank).subset h
  rw [List.mem_reverse] at inner
  exact (List.dropWhile_suffix isBlank).subset inner

/-- The field that the text continues, empty if it starts with a blank, and the fields after it. -/
def splitFields : List Char → List Char × List (List Char)
  | [] => ([], [])
  | c :: cs =>
    let (field, later) := splitFields cs
    if isBlank c then ([], if field.isEmpty then later else field :: later)
    else (c :: field, later)

/-- Blanks in a row part two fields no more than one does, so no field is empty. -/
def fields (cs : List Char) : List (List Char) :=
  let (field, later) := splitFields cs
  if field.isEmpty then later else field :: later

/-- What stands before the first blank, and what follows it if there is one. -/
def splitFirst : List Char → List Char × Option (List Char)
  | [] => ([], none)
  | c :: cs =>
    if isBlank c then ([], some cs)
    else
      let (first, rest) := splitFirst cs
      (c :: first, rest)

end StackCompiler.Text
