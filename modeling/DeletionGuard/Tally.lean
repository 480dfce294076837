import DeletionGuard.Outcome

/-!
Counts of one run. A refusal outranks an error in the exit status, and an error outranks success.
-/
namespace DeletionGuard

structure Tally where
  removed : Nat
  skipped : Nat
  blocked : Nat
  failed : Nat
  deriving DecidableEq, Repr

namespace Tally

def zero : Tally := ⟨0, 0, 0, 0⟩

def exitStatus (blocked failed : Int) : Nat :=
  if blocked ≠ 0 then 2 else if failed ≠ 0 then 1 else 0

def exitCode (t : Tally) : Nat :=
  exitStatus t.blocked t.failed

def unsuccessful (t : Tally) : Nat :=
  t.blocked + t.failed

def addRemoved (t : Tally) : Tally := { t with removed := t.removed + 1 }
def addSkipped (t : Tally) : Tally := { t with skipped := t.skipped + 1 }
def addBlocked (t : Tally) : Tally := { t with blocked := t.blocked + 1 }
def addFailed (t : Tally) : Tally := { t with failed := t.failed + 1 }

/-- The counts with an outcome counted as if its removal succeeded. -/
def count (t : Tally) (o : Outcome) : Tally :=
  match o.finding with
  | .unverifiable _ => t.addBlocked
  | .judged _ .skipped => t.addSkipped
  | .judged _ (.error _) => t.addFailed
  | .judged _ (.verdict (.block _)) => t.addBlocked
  | .judged _ (.verdict (.allow _)) => t.addRemoved

def ofOutcomes (outcomes : List Outcome) : Tally :=
  outcomes.foldl count zero

end Tally
end DeletionGuard
