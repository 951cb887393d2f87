/-!
# Tabs, lines and positions

A position in a text is an offset in characters. People count lines and columns instead, both from
one, and they count after tabs have been replaced by blanks up to the next stop. This module holds
the three views and the small pieces of layout that messages are built from.
-/

namespace Fern.Text

/-- The distance between two tab stops. -/
def tabWidth : Nat := 8

/-- Replaces every tab by blanks up to the next stop, from a given column on. A line feed and a
carriage return both start a new line of columns. -/
def expandTabsFrom (column : Nat) : List Char → List Char
  | [] => []
  | c :: rest =>
    if c = '\t' then
      let width := tabWidth - column % tabWidth
      List.replicate width ' ' ++ expandTabsFrom (column + width) rest
    else if c = '\n' || c = '\r' then c :: expandTabsFrom 0 rest
    else c :: expandTabsFrom (column + 1) rest

def expandTabs (text : List Char) : List Char := expandTabsFrom 0 text

/-- A text without tabs is its own expansion. -/
theorem expandTabsFrom_of_not_mem {text : List Char} (h : '\t' ∉ text) (column : Nat) :
    expandTabsFrom column text = text := by
  induction text generalizing column with
  | nil => rfl
  | cons c rest ih =>
    obtain ⟨hc, hr⟩ := not_or.1 fun hm => h (List.mem_cons.2 hm)
    rw [expandTabsFrom, if_neg (Ne.symm hc), ih hr, ih hr, ite_self]

def lines (text : List Char) : List (List Char) := text.splitOn '\n'

/-- The line that holds an offset, counted from one. -/
def lineAt (text : List Char) (offset : Nat) : Nat :=
  (text.take offset).count '\n' + 1

/-- The column of an offset within its line, counted from one. -/
def columnAt (text : List Char) (offset : Nat) : Nat :=
  let before := ((text.take offset).reverse.takeWhile (· ≠ '\n')).length
  before + (offset - text.length) + 1

/-- A text padded with blanks on the left to a width. -/
def padLeft (width : Nat) (text : String) : String :=
  String.ofList (text.toList.leftpad width ' ')

def blankRun (width : Nat) : String := String.ofList (List.replicate width ' ')

/-- Ends every line by a line feed alone, whichever way it ended before. -/
def plainNewlines : List Char → List Char
  | [] => []
  | '\r' :: '\n' :: rest => '\n' :: plainNewlines rest
  | '\r' :: rest => '\n' :: plainNewlines rest
  | c :: rest => c :: plainNewlines rest

end Fern.Text
