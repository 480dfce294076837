import DeletionGuard.Text.Basic

/-!
What a file tree holds, and the ways a call on it fails.
-/
namespace DeletionGuard

structure Deny where
  read : Bool
  write : Bool
  search : Bool
  deriving DecidableEq, Repr

namespace Deny

def nothing : Deny := ⟨false, false, false⟩

def ofLetters (s : String) : Deny :=
  ⟨Text.holds 'r' s, Text.holds 'w' s, Text.holds 'x' s⟩

end Deny

instance bytesDecidableEq : DecidableEq ByteArray :=
  ByteArray.instDecidableEq

inductive Entry where
  | file (data : ByteArray) (deny : Deny)
  | dir (deny : Deny)
  | link (target : String)
  | fifo (deny : Deny)
  deriving DecidableEq

namespace Entry

def isDir : Entry → Bool
  | .dir _ => true
  | _ => false

def isLink : Entry → Bool
  | .link _ => true
  | _ => false

def isFile : Entry → Bool
  | .file _ _ => true
  | _ => false

def deny : Entry → Deny
  | .file _ d | .dir d | .fifo d => d
  | .link _ => .nothing

def withDeny (d : Deny) : Entry → Entry
  | .file data _ => .file data d
  | .dir _ => .dir d
  | .link target => .link target
  | .fifo _ => .fifo d

def withData (data : ByteArray) : Entry → Entry
  | .file _ d => .file data d
  | e => e

def kindWord : Entry → String
  | .file _ _ => "file"
  | .dir _ => "dir"
  | .link _ => "link"
  | .fifo _ => "fifo"

def text : Entry → String
  | .file data _ => (String.fromUTF8? data).getD ""
  | _ => ""

end Entry

inductive Errno where
  | noEntry
  | inputOutput
  | noAccess
  | busy
  | exists
  | notDirectory
  | isDirectory
  | nameTooLong
  | notEmpty
  | tooManyLinks
  deriving DecidableEq, Repr

namespace Errno

def all : List Errno :=
  [noEntry, inputOutput, noAccess, busy, .exists, notDirectory, isDirectory, nameTooLong,
   notEmpty, tooManyLinks]

def number : Errno → Nat
  | noEntry => 2
  | inputOutput => 5
  | noAccess => 13
  | busy => 16
  | .exists => 17
  | notDirectory => 20
  | isDirectory => 21
  | nameTooLong => 36
  | notEmpty => 39
  | tooManyLinks => 40

def text : Errno → String
  | noEntry => "No such file or directory"
  | inputOutput => "Input/output error"
  | noAccess => "Permission denied"
  | busy => "Device or resource busy"
  | .exists => "File exists"
  | notDirectory => "Not a directory"
  | isDirectory => "Is a directory"
  | nameTooLong => "File name too long"
  | notEmpty => "Directory not empty"
  | tooManyLinks => "Too many levels of symbolic links"

def ofNumber? (n : Nat) : Option Errno :=
  all.find? (·.number = n)

theorem ofNumber?_number (e : Errno) : ofNumber? e.number = some e := by
  cases e <;> rfl

end Errno
end DeletionGuard
