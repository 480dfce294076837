/-!
Cutting and comparing text. Everything here is a list function on the characters, so that a
statement about a text is an induction over them.
-/
namespace DeletionGuard.Text

def cut (sep : Char) (s : String) : List String :=
  (s.toList.splitOn sep).map String.ofList

def glue (sep : Char) (pieces : List String) : String :=
  String.ofList ([sep].intercalate (pieces.map String.toList))

theorem glue_cut (sep : Char) (s : String) : glue sep (cut sep s) = s := by
  simp [glue, cut, Function.comp_def, List.intercalate_splitOn]

def startsWith (s start : String) : Bool :=
  start.toList.isPrefixOf s.toList

def endsWith (s ending : String) : Bool :=
  ending.toList.isSuffixOf s.toList

def stripEnd (c : Char) (s : String) : String :=
  String.ofList (s.toList.reverse.dropWhile (· = c)).reverse

def drop (n : Nat) (s : String) : String :=
  String.ofList (s.toList.drop n)

def holds (c : Char) (s : String) : Bool :=
  s.toList.contains c

/-- The character that no path and no program argument may hold. -/
def nul : Char := '\x00'

def inRanges (n : Nat) : List (Nat × Nat) → Bool
  | [] => false
  | (low, high) :: rest => low ≤ n && (n ≤ high || inRanges n rest)

end DeletionGuard.Text
