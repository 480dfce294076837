import DeletionGuard.Console
import DeletionGuard.Tally

/-!
The table of verdicts, one row an argument, with the totals below it.
-/
namespace DeletionGuard.Report

def cells (o : Outcome) : String × String :=
  let refusal (b : Block) : String × String :=
    let place := match b.path with
      | some p => " (" ++ p.text ++ ")"
      | none => ""
    (Console.styled "red" "block", b.reason.word ++ ": " ++ b.describe ++ place)
  match o.finding with
  | .unverifiable b => refusal b
  | .judged _ .skipped => (Console.styled "dim" "skip", "missing (ignored by --force)")
  | .judged _ (.error e) => (Console.styled "yellow" "error", e.message)
  | .judged _ (.verdict (.block b)) => refusal b
  | .judged _ (.verdict (.allow bypassed)) =>
    (Console.styled "green" "allow", (Verdict.allow bypassed).describe)

def row (number : Nat) (o : Outcome) : List String :=
  let (verdict, detail) := cells o
  [Nat.repr number, Markup.escape o.raw, verdict, Markup.escape detail]

def rows (outcomes : List Outcome) : List (List String) :=
  outcomes.zipIdx.map fun (o, i) => row (i + 1) o

def totals (t : Tally) : String :=
  "\n" ++ Console.styled "bold" (Nat.repr t.removed) ++ " allowed, " ++
    Console.styled "bold" (Nat.repr t.blocked) ++ " blocked, " ++
    Console.styled "bold" (Nat.repr t.failed) ++ " errors, " ++
    Console.styled "bold" (Nat.repr t.skipped) ++ " skipped"

def display (outcomes : List Outcome) (screen : Screen := .plain) :
    Except Failure (List Console.Item) :=
  let table := Console.table screen "Deletion Check" ["#", "Path", "Verdict", "Detail"]
    (rows outcomes)
  table.bind fun table =>
    (Console.line screen (totals (.ofOutcomes outcomes))).map fun line => [table, line]

end DeletionGuard.Report
