import DeletionGuard.Guard
import DeletionGuard.Listing
import DeletionGuard.Outcome

/-!
Evaluation of path arguments. The boundary outranks usage errors, and those outrank the bypass and
the policy. A directory is allowed only if every leaf below it is.
-/
namespace DeletionGuard

structure Flags where
  recursive : Bool
  force : Bool
  deriving DecidableEq, Repr

structure Evaluator where
  base : Path
  guard : Guard
  deriving DecidableEq, Repr

namespace Evaluator

def judge (ev : Evaluator) (w : World) (raw : String) : Except Failure Verdict :=
  match w.resolve ev.base raw with
  | .ok t => .ok (ev.guard.decide w t)
  | .error (.unverifiable u) => .ok (.block (Guard.refuse u))
  | .error (.failure f) => .error f

/-- The first refusal among leaves, or permission if there is none. -/
def judgeAll (ev : Evaluator) (w : World) : List Path → Except Failure Verdict
  | [] => .ok (.allow false)
  | leaf :: rest =>
    match ev.judge w leaf.text with
    | .error f => .error f
    | .ok v => if v.blocked then .ok v else judgeAll ev w rest

def judgeTree (ev : Evaluator) (w : World) (t : Target) : Except Failure Verdict :=
  match w.leavesBelow t.resolved with
  | .error u =>
    match World.obstacle u.directory u.failure with
    | .unverifiable u => .ok (.block (Guard.refuse u))
    | .failure f => .error f
  | .ok leaves => ev.judgeAll w leaves

def answer (ev : Evaluator) (w : World) (flags : Flags) (t : Target) (bypass : Option Verdict) :
    Except Failure Answer :=
  if t.notDirectory then .ok (.error (.usage .notADirectory t.raw))
  else if !t.exists? then
    .ok (if flags.force then .skipped else .error (.usage .pathMissing t.raw))
  else if t.isDir && !flags.recursive then .ok (.error (.usage .isADirectory t.raw))
  else
    match bypass with
    | some v => .ok (.verdict v)
    | none =>
      if t.isDir then (ev.judgeTree w t).map .verdict
      else .ok (.verdict (ev.guard.applyPolicy w t))

def evaluate (ev : Evaluator) (w : World) (flags : Flags) (raw : String) :
    Except Failure Outcome :=
  match w.resolve ev.base raw with
  | .error (.failure f) => .error f
  | .error (.unverifiable u) => .ok ⟨raw, .unverifiable (Guard.refuse u)⟩
  | .ok t =>
    match ev.guard.boundary t with
    | some (.block b) => .ok ⟨raw, .judged t (.verdict (.block b))⟩
    | bypass => (ev.answer w flags t bypass).map fun a => ⟨raw, .judged t a⟩

def process (ev : Evaluator) (w : World) (flags : Flags) :
    List String → Except Failure (List Outcome)
  | [] => .ok []
  | raw :: rest =>
    match ev.evaluate w flags raw with
    | .error f => .error f
    | .ok o => (process ev w flags rest).map (o :: ·)

end Evaluator
end DeletionGuard
