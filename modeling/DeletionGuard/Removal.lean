import DeletionGuard.Evaluation
import DeletionGuard.Tally

/-!
Removal of allowed targets, and reports on all others. Outcomes are acted on in order; a removal
that fails is counted and the run goes on. A recursive removal stops at the first entry that
cannot be removed, and what is gone by then stays gone.
-/
namespace DeletionGuard

namespace World

/-- An action on each of a list in turn, until one fails. -/
def inTurn {α : Type} (act : World → α → World × Option Failure) :
    World → List α → World × Option Failure
  | w, [] => (w, none)
  | w, x :: rest =>
    match act w x with
    | (w, none) => inTurn act w rest
    | (w, some f) => (w, some f)

/-- An action that leaves the world as it was when it fails. -/
def attempt (w : World) : Except Failure World → World × Option Failure
  | .ok w' => (w', none)
  | .error f => (w, some f)

/-- Removal of what lies in a directory, and then of the directory. It names each entry by its whole
path, so an entry stops it whose path no call takes; a removal that works inside the directories it
has opened would go on. How deep directories may be nested until it gives up is left aside. -/
def removeNested : Nat → World → Path → World × Option Failure
  | 0, w, p => (w, some (.linkLoop p.text))
  | n + 1, w, p =>
    match w.list p.text with
    | .error f => (w, some f)
    | .ok entries =>
      let act (w : World) (e : String × Entry) : World × Option Failure :=
        let q := p.child e.1
        if e.2.isDir then removeNested n w q else w.attempt (w.unlink q.text)
      match w.inTurn act entries with
      | (w, some f) => (w, some f)
      | (w, none) => w.attempt (w.rmdir p.text)

/-- Removal of a directory with all its contents. It does not start at a link. -/
def removeTree (w : World) (p : Path) : World × Option Failure :=
  match w.lstat p.text with
  | .ok (.link _) => (w, some .linkedTree)
  | _ => removeNested (w.tree.entries.length + 1) w p

end World

structure Remover where
  projectRoot : Path
  dryRun : Bool
  useTrash : Bool
  deriving DecidableEq, Repr

/-- A run of removals: the world as it is now, the counts, what was printed, what the trash was
handed, and the failure that ended the run, if one did. -/
structure Removals where
  world : World
  tally : Tally
  out : List Console.Item
  err : List Console.Item
  trashed : List String
  crash : Option Failure

namespace Removals

def start (w : World) : Removals :=
  ⟨w, .zero, [], [], [], none⟩

def fail (r : Removals) (f : Failure) : Removals :=
  { r with crash := some f }

def report (r : Removals) (item : Except Failure Console.Item) (add : Tally → Tally) : Removals :=
  match item with
  | .ok i => { r with err := r.err ++ [i], tally := add r.tally }
  | .error f => r.fail f

def print (r : Removals) (item : Except Failure Console.Item) : Removals :=
  match item with
  | .ok i => { r with out := r.out ++ [i] }
  | .error f => r.fail f

end Removals

namespace Remover

def complaint (screen : Screen) (raw message : String) : Except Failure Console.Item :=
  Console.line screen <| Console.styled "red" <|
    "safe-rm: " ++ Markup.escape raw ++ ": " ++ Markup.escape message

def notice (s : Remover) (screen : Screen) (raw : String) (bypassed : Bool) :
    Except Failure Console.Item :=
  let verb := if s.dryRun then "would remove" else "removed"
  let note := if bypassed then " (allowed by config)" else ""
  Console.line screen (verb ++ ": " ++ Markup.escape raw ++ note)

/-- Removal of one target; a link is removed, never what it leads to. -/
def remove (s : Remover) (w : World) (t : Target) : World × Option Failure :=
  if s.dryRun then (w, none)
  else if s.useTrash then w.attempt (w.discard t.resolved.text)
  else if t.isDir then w.removeTree t.resolved
  else w.attempt (w.unlink t.resolved.text)

def handed (s : Remover) (t : Target) : List String :=
  if s.useTrash && !s.dryRun then [t.resolved.text] else []

def act (s : Remover) (r : Removals) (o : Outcome) : Removals :=
  let screen := r.world.screen
  match o.finding with
  | .judged _ .skipped => { r with tally := r.tally.addSkipped }
  | .judged _ (.error e) => r.report (complaint screen o.raw e.message) Tally.addFailed
  | .unverifiable b | .judged _ (.verdict (.block b)) =>
    r.report (complaint screen o.raw (b.explain s.projectRoot)) Tally.addBlocked
  | .judged t (.verdict (.allow bypassed)) =>
    let (w, failure) := s.remove r.world t
    let r := { r with world := w, trashed := r.trashed ++ s.handed t }
    match failure with
    | none => { r with tally := r.tally.addRemoved }.print (s.notice screen o.raw bypassed)
    | some f =>
      if f.isSystem then
        let e : OperationError := ⟨.removalFailed, Path.ofString o.raw, f.reason⟩
        r.report (complaint screen o.raw e.message) Tally.addFailed
      else r.fail f

def actAll (s : Remover) : Removals → List Outcome → Removals
  | r, [] => r
  | r, o :: rest =>
    let r := s.act r o
    if r.crash.isSome then r else actAll s r rest

def summary (s : Remover) (screen : Screen) (t : Tally) : Except Failure Console.Item :=
  Console.line screen <| "safe-rm: " ++ Nat.repr t.removed ++ " file(s) " ++
    (if s.dryRun then "would be removed" else "removed") ++ ", " ++ Nat.repr t.unsuccessful ++
    " failed"

def execute (s : Remover) (w : World) (outcomes : List Outcome) : Removals :=
  let r := s.actAll (.start w) outcomes
  if r.crash.isNone && r.tally.unsuccessful ≠ 0 && 1 < outcomes.length then
    r.report (s.summary w.screen r.tally) id
  else r

end Remover
end DeletionGuard
