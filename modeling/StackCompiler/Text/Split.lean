/-!
Lists cut at every occurrence of a separator, so that no piece holds one.
-/

namespace StackCompiler.Text

variable {α : Type} [DecidableEq α] (separator : α)

/-- The piece that the list continues, and the pieces after it. -/
def splitFrom : List α → List α × List (List α)
  | [] => ([], [])
  | a :: as =>
    let (piece, later) := splitFrom as
    if a = separator then ([], piece :: later) else (a :: piece, later)

/-- There is one piece more than there are separators, so a list that ends in one has an empty last
piece. -/
def split (as : List α) : List (List α) :=
  let (piece, later) := splitFrom separator as
  piece :: later

theorem not_mem_splitFrom (as : List α) :
    separator ∉ (splitFrom separator as).1 ∧
      ∀ piece ∈ (splitFrom separator as).2, separator ∉ piece := by
  induction as with
  | nil => simp [splitFrom]
  | cons a as ih =>
    by_cases h : a = separator
    · simpa [splitFrom, h] using ih
    · simpa [splitFrom, h, Ne.symm h] using ih

theorem not_mem_of_mem_split {as piece : List α} (h : piece ∈ split separator as) :
    separator ∉ piece := by
  have hs := not_mem_splitFrom separator as
  simp only [split, List.mem_cons] at h
  rcases h with rfl | h
  · exact hs.1
  · exact hs.2 piece h

/-- Only the line feed ends a line: a carriage return before it belongs to the line, where it is a
blank like any other. -/
def lines (cs : List Char) : List (List Char) := split '\n' cs

end StackCompiler.Text
