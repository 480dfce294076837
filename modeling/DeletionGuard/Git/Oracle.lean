import DeletionGuard.Git.Porcelain
import DeletionGuard.Git.Program

/-!
The status of a whole repository, asked for once and read many times. A repository whose status
git refuses to give answers that every path is modified.
-/
namespace DeletionGuard

namespace Git

structure Oracle where
  /-- The root of the repository, if there is one. -/
  root : Option Path
  entries : Ledger
  directories : Ledger
  tracked : List String
  failed : Bool
  deriving DecidableEq, Repr

namespace Oracle

def notInRepo : Oracle :=
  ⟨none, [], [], [], false⟩

def failure (root : Path) : Oracle :=
  ⟨some root, [], [], [], true⟩

def under (directory key : String) : Bool :=
  key = directory || Text.startsWith key (directory ++ "/")

/-- The status that the listing gives to a key; `present` tells whether there is such an entry. -/
def lookUp (o : Oracle) (key : String) (present : Bool) : Status :=
  match o.entries.lookup key with
  | some s => s
  | none =>
    if o.tracked.contains key then .clean
    else
      match o.directories.find? fun d => under d.1 key with
      | some d => d.2
      | none => if present then .untracked else .clean

def status (o : Oracle) (w : World) (p : Path) : Status :=
  match o.root with
  | none => .notInRepo
  | some root =>
    if o.failed then .modified
    else
      match root.keyFrom p with
      | none => .notInRepo
      | some key => o.lookUp key (w.lexists p.text)

end Oracle
end Git

namespace World

def repositoryStatus (w : World) (root : Path) :
    Except Failure (Option (Git.Changes × List String)) :=
  match w.askGit root .status with
  | .error f => .error f
  | .ok (.answered status) =>
    match w.askGit root .files with
    | .error f => .error f
    | .ok (.answered files) =>
      .ok (some (Git.Changes.parse status, (Text.cut Text.nul files).filter (· ≠ "")))
    | .ok _ => .ok none
  | .ok _ => .ok none

/-- The oracle of the repository that holds a directory. -/
def prepareOracle (w : World) (start : Path) : Except Failure Git.Oracle :=
  match w.repositoryRoot start with
  | .error f => .error f
  | .ok none => .ok .notInRepo
  | .ok (some root) =>
    match w.repositoryStatus root with
    | .error f => .error f
    | .ok none => .ok (.failure root)
    | .ok (some (changes, tracked)) =>
      .ok ⟨some root, changes.files, changes.directories, tracked, false⟩

end World
end DeletionGuard
