import DeletionGuard.Git.Status
import DeletionGuard.Text.Basic

/-!
The machine-readable listing of changes: records `XY path`, each ended by NUL. A record whose first
letter says renamed or copied is followed by the former path, which is no record.
-/
namespace DeletionGuard.Git

/-- The status that a code stands for. A code too short to have both letters has none. -/
def Status.ofCode? (code : List Char) : Option Status :=
  if code = ['!', '!'] then some .ignored
  else if code = ['?', '?'] then some .untracked
  else
    match code with
    | index :: worktree :: _ =>
      if code.contains 'U' || code = ['A', 'A'] || code = ['D', 'D'] then some .modified
      else if index ≠ ' ' && index ≠ '?' then some .staged
      else if worktree ≠ ' ' then some .modified
      else some .clean
    | _ => none

/-- Values by key, in the order in which the keys first came. -/
abbrev Ledger := List (String × Status)

namespace Ledger

def record (l : Ledger) (key : String) (value : Status) : Ledger :=
  if l.any (·.1 = key) then l.map fun e => if e.1 = key then (key, value) else e
  else l ++ [(key, value)]

def ofList (entries : List (String × Status)) : Ledger :=
  entries.foldl (fun l e => record l e.1 e.2) []

end Ledger

structure Change where
  index : Char
  worktree : Char
  path : String
  deriving DecidableEq, Repr

namespace Change

/-- A token shorter than a code, a blank and one character of a path is no record. -/
def ofToken? (token : String) : Option Change :=
  match token.toList with
  | x :: y :: _ :: c :: cs => some ⟨x, y, String.ofList (c :: cs)⟩
  | _ => none

def hasFormerPath (c : Change) : Bool :=
  c.index = 'R' || c.index = 'C'

def ofTokens : List String → List Change
  | [] => []
  | token :: rest =>
    match ofToken? token with
    | none => ofTokens rest
    | some c =>
      if c.hasFormerPath then
        match rest with
        | [] => [c]
        | _ :: rest => c :: ofTokens rest
      else c :: ofTokens rest

def status (c : Change) : Status :=
  (Status.ofCode? [c.index, c.worktree]).getD .clean

end Change

/-- The changes of a repository: those of files, and those of whole directories, which apply to
everything below them. -/
structure Changes where
  files : Ledger
  directories : Ledger
  deriving DecidableEq, Repr

namespace Changes

/-- A path that ends in a slash is a directory; its key has no slash at the end. -/
def add (cs : Changes) (c : Change) : Changes :=
  if Text.endsWith c.path "/" then
    { cs with directories := cs.directories.record (Text.stripEnd '/' c.path) c.status }
  else { cs with files := cs.files.record c.path c.status }

def parse (output : String) : Changes :=
  (Change.ofTokens (Text.cut Text.nul output)).foldl add ⟨[], []⟩

end Changes
end DeletionGuard.Git
