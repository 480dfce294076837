import DeletionGuard.Text.Width

/-!
Tabs laid out as blanks. Each leads to the next tab stop of its line.
-/
namespace DeletionGuard.Text

def tabStop : Nat := 8

def toStop (column : Nat) : Nat :=
  (tabStop - column % tabStop) % tabStop

/-- The pieces of a line that begins at a column, with blanks in place of the tabs between them.
There is at least one blank for each tab. -/
def layTabs (column : Nat) : List (List Char) → List Char
  | [] => []
  | [last] => last
  | piece :: rest =>
    let spaced := piece ++ [' ']
    let reached := column + width spaced
    spaced ++ List.replicate (toStop reached) ' ' ++ layTabs (reached + toStop reached) rest

def expandLine (line : String) : String :=
  String.ofList (layTabs 0 (line.toList.splitOn '\t'))

def expandTabs (s : String) : String :=
  glue '\n' ((cut '\n' s).map expandLine)

end DeletionGuard.Text
