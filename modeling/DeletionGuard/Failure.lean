import DeletionGuard.Decimal.Limit
import DeletionGuard.FileTree.Entry
import DeletionGuard.Text.Quoted

/-!
The ways in which a step of the program fails, each with the text it reports.
-/
namespace DeletionGuard

inductive Failure where
  /-- A call on the file tree failed; the path is the one the call was given. -/
  | call (error : Errno) (path : String)
  /-- The current directory is gone. -/
  | noWorkingDirectory
  /-- A path leads through a link that leads to itself. -/
  | linkLoop (path : String)
  /-- Neither the environment nor the user database names a home directory. -/
  | noHome
  /-- A path holds the character that no path can hold. -/
  | nulInPath
  /-- The restricted policy was asked for without a source of git status. -/
  | noOracle
  /-- The trash refused, with a text of its own. -/
  | trash (text : String)
  /-- A recursive removal was asked to start at a link. -/
  | linkedTree
  /-- A closing tag in a printed text has no open tag of that name; the position counts
  characters. -/
  | unmatchedTag (tag : String) (position : Nat)
  /-- An integer is too long to be read, where the digits are counted, or to be written. -/
  | longNumber (digits : Option Nat)
  /-- A closing tag without a name has no open tag at all. -/
  | nothingToClose (position : Nat)
  deriving DecidableEq, Repr

namespace Failure

def callText (e : Errno) : String :=
  "[Errno " ++ Nat.repr e.number ++ "] " ++ e.text

def message : Failure → String
  | call e path => callText e ++ ": " ++ Text.quoted path
  | noWorkingDirectory => callText .noEntry
  | linkLoop path => "Symlink loop from " ++ Text.quoted path
  | noHome => "Could not determine home directory."
  | nulInPath => "embedded null byte"
  | noOracle => "A git status oracle is required when project deletion is restricted"
  | trash text => text
  | linkedTree => "Cannot call rmtree on a symbolic link"
  | unmatchedTag tag position =>
    "closing tag '" ++ tag ++ "' at position " ++ Nat.repr position ++
      " doesn't match any open tag"
  | longNumber digits =>
    let count := match digits with
      | some n => ": value has " ++ Nat.repr n ++ " digits"
      | none => ""
    "Exceeds the limit (" ++ Nat.repr Decimal.digitLimit ++
      " digits) for integer string conversion" ++ count ++
      "; use sys.set_int_max_str_digits() to increase the limit"
  | nothingToClose position =>
    "closing tag '[/]' at position " ++ Nat.repr position ++ " has nothing to close"

def errno? : Failure → Option Errno
  | call e _ => some e
  | noWorkingDirectory => some .noEntry
  | _ => none

/-- Whether the system, and not the program, reported the failure. -/
def isSystem : Failure → Bool
  | call _ _ | noWorkingDirectory | trash _ | linkedTree => true
  | _ => false

def reason (f : Failure) : String :=
  match f.errno? with
  | some e => e.text
  | none => f.message

end Failure
end DeletionGuard
