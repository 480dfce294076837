import DeletionGuard.Markup
import DeletionGuard.Text.Tab

/-!
What is shown on a console, one item a call. Lines are never wrapped; a tab in a line is laid out
in columns, one in a cell is not.
-/
namespace DeletionGuard

/-- What a screen makes of what it shows: the emoji that it knows, and what it leaves of a cell when
the columns of a table with these rows have to give way to its width. -/
structure Screen where
  emoji : Emoji
  cut (rows : List (List String)) (column : Nat) (cell : String) : String
  /-- A cell is all there, or an ellipsis stands for what is missing. -/
  kept : ∀ rows column cell, cut rows column cell = cell ∨ '…' ∈ (cut rows column cell).toList

def Screen.plain : Screen where
  emoji := .none
  cut _ _ cell := cell
  kept _ _ _ := .inl rfl

namespace Console

inductive Item where
  | line (text : String)
  | table (title : String) (columns : List String) (rows : List (List String))
  | panel (title text : String)
  deriving DecidableEq, Repr

def line (screen : Screen) (markup : String) : Except Failure Item :=
  (Markup.render screen.emoji markup).map fun s =>
    .line (Text.expandTabs s ++ "\n")

def cells (screen : Screen) (rows : List (List String)) : Except Failure (List (List String)) :=
  rows.mapM fun row : List String => row.mapM (Markup.render screen.emoji)

/-- A table whose columns are wide enough or fold what they hold. -/
def table (screen : Screen) (title : String) (columns : List String) (rows : List (List String)) :
    Except Failure Item :=
  (cells screen rows).map (.table title columns)

/-- A table whose columns give way to the width of the screen. -/
def narrowTable (screen : Screen) (title : String) (columns : List String)
    (rows : List (List String)) : Except Failure Item :=
  (cells screen rows).map fun shown =>
    .table title columns (shown.map (·.mapIdx (screen.cut shown)))

def panel (screen : Screen) (title markup : String) : Except Failure Item :=
  (Markup.render screen.emoji markup).map (.panel title)

def styled (style text : String) : String :=
  "[" ++ style ++ "]" ++ text ++ "[/" ++ style ++ "]"

def errorLine (screen : Screen) (message : String) : Except Failure Item :=
  line screen (styled "red" (Markup.escape message))

def warningLine (screen : Screen) (message : String) : Except Failure Item :=
  line screen (styled "yellow" (Markup.escape message))

end Console
end DeletionGuard
