/-!
Readers: functions that take a part off the front of a text, or fail.
-/
namespace DeletionGuard.Toml

abbrev Reader (α : Type) := List Char → Option (α × List Char)

def isSpace (c : Char) : Bool :=
  c = ' ' || c = '\t'

def isSpaceOrNewline (c : Char) : Bool :=
  isSpace c || c = '\n'

def skipSpaces (cs : List Char) : List Char :=
  cs.dropWhile isSpace

/-- The characters that no line may hold: the controls other than the tab. -/
def isIllegal (c : Char) : Bool :=
  c ≠ '\t' && (c.toNat < 32 || c.toNat = 127)

def isHexDigit (c : Char) : Bool :=
  c.isDigit || 'a' ≤ c && c ≤ 'f' || 'A' ≤ c && c ≤ 'F'

def digitValue (c : Char) : Nat :=
  if c.isDigit then c.toNat - 48 else if c.isLower then c.toNat - 87 else c.toNat - 55

def numberIn (base : Nat) (digits : List Char) : Nat :=
  digits.foldl (fun n c => n * base + digitValue c) 0

def after (start : String) (cs : List Char) : Option (List Char) :=
  if start.toList.isPrefixOf cs then some (cs.drop start.length) else none

/-- A reader after which only blanks may follow on the line: end of line or text, or a comment. -/
def skipComment : List Char → Option (List Char)
  | '#' :: cs =>
    let body := cs.takeWhile (· ≠ '\n')
    if body.any isIllegal then none else some (cs.drop body.length)
  | cs => some cs

end DeletionGuard.Toml
