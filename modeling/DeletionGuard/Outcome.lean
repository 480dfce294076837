import DeletionGuard.Target
import DeletionGuard.Verdict

/-!
Outcomes: what is to be done about one path argument. An argument without a target is always
refused; one with a target has a verdict, a usage error or is skipped.
-/
namespace DeletionGuard

inductive ErrorKind where
  | pathMissing
  | notADirectory
  | isADirectory
  | removalFailed
  deriving DecidableEq, Repr

namespace ErrorKind

def all : List ErrorKind :=
  [pathMissing, notADirectory, isADirectory, removalFailed]

def word : ErrorKind → String
  | pathMissing => "path-missing"
  | notADirectory => "not-a-directory"
  | isADirectory => "is-a-directory"
  | removalFailed => "removal-failed"

def ofWord? (s : String) : Option ErrorKind :=
  all.find? (·.word = s)

end ErrorKind

structure OperationError where
  kind : ErrorKind
  path : Path
  detail : String
  deriving DecidableEq, Repr

namespace OperationError

def cause (e : OperationError) : String :=
  match e.kind with
  | .pathMissing => "No such file or directory"
  | .notADirectory => "Not a directory"
  | .isADirectory => "Is a directory (use -r for recursive)"
  | .removalFailed => if e.detail = "" then "removal failed" else e.detail

def message (e : OperationError) : String :=
  "cannot remove '" ++ e.path.text ++ "': " ++ e.cause

def usage (kind : ErrorKind) (raw : String) : OperationError :=
  ⟨kind, Path.ofString raw, ""⟩

end OperationError

inductive Answer where
  | verdict (v : Verdict)
  | error (e : OperationError)
  | skipped
  deriving DecidableEq, Repr

inductive Finding where
  | unverifiable (b : Block)
  | judged (target : Target) (answer : Answer)
  deriving DecidableEq, Repr

structure Outcome where
  raw : String
  finding : Finding
  deriving DecidableEq, Repr

namespace Outcome

def target? (o : Outcome) : Option Target :=
  match o.finding with
  | .unverifiable _ => none
  | .judged t _ => some t

def verdict? (o : Outcome) : Option Verdict :=
  match o.finding with
  | .unverifiable b => some (.block b)
  | .judged _ (.verdict v) => some v
  | .judged _ _ => none

def error? (o : Outcome) : Option OperationError :=
  match o.finding with
  | .judged _ (.error e) => some e
  | _ => none

def skipped (o : Outcome) : Bool :=
  match o.finding with
  | .judged _ .skipped => true
  | _ => false

def blocked (o : Outcome) : Bool :=
  o.verdict?.any Verdict.blocked

def allowed (o : Outcome) : Bool :=
  o.verdict?.any Verdict.allowed

end Outcome
end DeletionGuard
