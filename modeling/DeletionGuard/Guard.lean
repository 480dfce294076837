import DeletionGuard.Git.Oracle
import DeletionGuard.Rule
import DeletionGuard.Target
import DeletionGuard.Verdict

/-!
The guard combines rules, boundary and policy into verdicts; the first that applies wins. A path
that cannot be verified is refused before any rule is looked at.
-/
namespace DeletionGuard

/-- What may be deleted inside the project. -/
inductive Policy where
  | open
  /-- What is committed, ignored or not in a repository. -/
  | restricted (oracle : Git.Oracle)
  deriving DecidableEq, Repr

def Policy.choose (allowProjectDeletion : Bool) (oracle : Option Git.Oracle) :
    Except Failure Policy :=
  if allowProjectDeletion then .ok .open
  else
    match oracle with
    | some o => .ok (.restricted o)
    | none => .error .noOracle

structure Guard where
  rules : List Rule
  projectRoot : Path
  policy : Policy
  deriving DecidableEq, Repr

namespace Guard

def boundary (g : Guard) (t : Target) : Option Verdict :=
  if covered g.rules t.resolved then some (.allow true)
  else if !t.isWithin g.projectRoot then
    some (.block ⟨.outsideProject, some t.absolute, none⟩)
  else none

def applyPolicy (g : Guard) (w : World) (t : Target) : Verdict :=
  match g.policy with
  | .open => .allow false
  | .restricted o => .ofStatus (o.status w t.resolved) t.absolute

def refuse (u : Unverifiable) : Block :=
  ⟨.unreadableDirectory, some u.path, none⟩

def decide (g : Guard) (w : World) (t : Target) : Verdict :=
  (g.boundary t).getD (g.applyPolicy w t)

end Guard
end DeletionGuard
