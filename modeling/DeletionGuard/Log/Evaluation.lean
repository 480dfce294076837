import DeletionGuard.Evaluation
import DeletionGuard.Log.Event

/-!
What is noted while arguments are evaluated. Each log ends where the evaluation fails or where a
refusal ends it.
-/
namespace DeletionGuard.Evaluator

def resolveLog (ev : Evaluator) (w : World) (raw : String) : List Event :=
  match w.resolve ev.base raw with
  | .ok t => [.resolved raw t.resolved t.kind]
  | .error _ => []

def refusalLog (u : Unverifiable) : List Event :=
  [.judged u.message (.block (Guard.refuse u))]

def judgeLog (ev : Evaluator) (w : World) (raw : String) : List Event :=
  match w.resolve ev.base raw with
  | .ok t => ev.resolveLog w raw ++ [.judged raw (ev.guard.decide w t)]
  | .error (.unverifiable u) => refusalLog u
  | .error (.failure _) => []

def judgeAllLog (ev : Evaluator) (w : World) : List Path → List Event
  | [] => []
  | leaf :: rest =>
    ev.judgeLog w leaf.text ++
      match ev.judge w leaf.text with
      | .ok (.allow _) => judgeAllLog ev w rest
      | _ => []

def judgeTreeLog (ev : Evaluator) (w : World) (t : Target) : List Event :=
  match w.leavesBelow t.resolved with
  | .error u => [.directoryUnreadable u.directory u.failure]
  | .ok leaves =>
    ev.judgeAllLog w leaves ++
      match ev.judgeAll w leaves with
      | .ok (.allow _) => [.treeAllowed leaves.length t.resolved]
      | _ => []

def evaluateLog (ev : Evaluator) (w : World) (flags : Flags) (raw : String) : List Event :=
  match w.resolve ev.base raw with
  | .error (.failure _) => []
  | .error (.unverifiable u) => refusalLog u
  | .ok t =>
    let tree := t.isDir && !t.notDirectory && flags.recursive && (ev.guard.boundary t).isNone
    ev.resolveLog w raw ++ if tree then ev.judgeTreeLog w t else []

def processLog (ev : Evaluator) (w : World) (flags : Flags) : List String → List Event
  | [] => []
  | raw :: rest =>
    ev.evaluateLog w flags raw ++
      match ev.evaluate w flags raw with
      | .ok _ => processLog ev w flags rest
      | .error _ => []

end DeletionGuard.Evaluator
