import DeletionGuard.Config.Basic
import DeletionGuard.Evaluation
import DeletionGuard.Log.Evaluation
import DeletionGuard.Log.Preparation

/-!
A batch of arguments under one configuration. Git status is asked for once, before the first
argument, and only if the policy needs it.
-/
namespace DeletionGuard

structure Batch where
  evaluator : Evaluator
  oracle : Option Git.Oracle
  deriving DecidableEq, Repr

namespace Batch

def projectRoot (b : Batch) : Path :=
  b.evaluator.guard.projectRoot

end Batch

namespace World

def batchRoot (w : World) (cwd : Path) : Option Path → Except Failure Path
  | some root => .ok root
  | none => w.projectRoot cwd

/-- The oracle of a batch: one that is given, or else one for the project root if everything in it
is not free to be deleted. -/
def batchOracle (w : World) (config : Config) (root : Path) :
    Option Git.Oracle → Except Failure (Option Git.Oracle)
  | some oracle => .ok (some oracle)
  | none =>
    if config.settings.allowProjectDeletion then .ok none else (w.prepareOracle root).map some

def startBatch (w : World) (config : Config) (cwd : Path) (root : Option Path)
    (oracle : Option Git.Oracle) : Except Failure Batch :=
  (w.batchRoot cwd root).bind fun root =>
  (w.batchOracle config root oracle).bind fun oracle =>
  (Policy.choose config.settings.allowProjectDeletion oracle).map fun policy =>
    ⟨⟨cwd, ⟨config.rules, root, policy⟩⟩, oracle⟩

def needsOracle (config : Config) (oracle : Option Git.Oracle) : Bool :=
  oracle.isNone && !config.settings.allowProjectDeletion

def atRoot {α : Type} (w : World) (config : Config) (cwd : Path) (root : Option Path)
    (oracle : Option Git.Oracle) (find : Path → List α) : List α :=
  if needsOracle config oracle then
    match w.batchRoot cwd root with
    | .ok root => find root
    | .error _ => []
  else []

def batchLog (w : World) (config : Config) (cwd : Path) (root : Option Path)
    (oracle : Option Git.Oracle) : List Event :=
  (if root.isNone then w.repositoryLog cwd else []) ++
    w.atRoot config cwd root oracle w.oracleLog

def batchAsked (w : World) (config : Config) (cwd : Path) (root : Option Path)
    (oracle : Option Git.Oracle) : List Asked :=
  (if root.isNone then repositoryAsked cwd else []) ++
    w.atRoot config cwd root oracle w.oracleAsked

end World
end DeletionGuard
