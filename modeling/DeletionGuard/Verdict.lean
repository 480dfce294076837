import DeletionGuard.Git.Status
import DeletionGuard.Path.Basic

/-!
Verdicts on one path. A refusal names the rule behind it, the path that triggered it, which for a
directory is the offending descendant, and the git status where that is the cause.
-/
namespace DeletionGuard

inductive Reason where
  | outsideProject
  | uncommittedChange
  | unreadableDirectory
  deriving DecidableEq, Repr

namespace Reason

def all : List Reason :=
  [outsideProject, uncommittedChange, unreadableDirectory]

def word : Reason → String
  | outsideProject => "outside-project"
  | uncommittedChange => "uncommitted-change"
  | unreadableDirectory => "directory-read-error"

def ofWord? (s : String) : Option Reason :=
  all.find? (·.word = s)

def summary : Reason → String
  | outsideProject => "refusing to delete outside the project"
  | uncommittedChange => "refusing to delete a file with uncommitted changes"
  | unreadableDirectory => "cannot read directory, deletion blocked"

end Reason

structure Block where
  reason : Reason
  path : Option Path
  status : Option Git.Status
  deriving DecidableEq, Repr

namespace Block

def describe (b : Block) : String :=
  match b.status with
  | some s => b.reason.summary ++ " (" ++ s.word ++ ")"
  | none => b.reason.summary

def hints (b : Block) (projectRoot : Path) : List String :=
  match b.reason with
  | .outsideProject => ["  project: " ++ projectRoot.text]
  | .uncommittedChange =>
    ["  status: " ++ (b.status.map Git.Status.word).getD "None",
     "  commit the file first (git commit), then retry"]
  | .unreadableDirectory => ["  safety could not be verified; nothing was removed"]

def explain (b : Block) (projectRoot : Path) : String :=
  let head := b.reason.summary ++ " [" ++ b.reason.word ++ "]"
  let place := match b.path with
    | some p => ["  path: " ++ p.text]
    | none => []
  Text.glue '\n' (head :: (place ++ b.hints projectRoot))

end Block

inductive Verdict where
  /-- Deletion is allowed; by a rule of the configuration if `bypassed`. -/
  | allow (bypassed : Bool)
  | block (b : Block)
  deriving DecidableEq, Repr

namespace Verdict

def allowed : Verdict → Bool
  | allow _ => true
  | block _ => false

def blocked (v : Verdict) : Bool :=
  !v.allowed

def bypassed : Verdict → Bool
  | allow b => b
  | block _ => false

def describe : Verdict → String
  | allow true => "allowed by config"
  | allow false => "allowed"
  | block b => b.describe

/-- The restricted policy: what git has a copy of may go, and what it does not know. -/
def ofStatus (s : Git.Status) (p : Path) : Verdict :=
  if s.isDirty then .block ⟨.uncommittedChange, some p, some s⟩ else .allow false

end Verdict
end DeletionGuard
