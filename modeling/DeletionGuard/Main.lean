import DeletionGuard.CommandLine.Transcript
import DeletionGuard.FileTree.Changes
import DeletionGuard.Snapshot

/-!
The program: it reads a world from standard input and a command line from its arguments, and tells
what that command does there.
-/
namespace DeletionGuard

def Console.Item.text : Console.Item → String
  | .line s => s
  | .table title columns rows =>
    Text.glue '\n' (title :: (columns :: rows).map (Text.glue '\t')) ++ "\n"
  | .panel title s => title ++ "\n" ++ s ++ "\n"

def Transcript.texts (old : World) (t : Transcript) : List String × List String :=
  let gone := (old.tree.removedSince t.world.tree).map ("gone: " ++ · ++ "\n")
  let made := (old.tree.writtenSince t.world.tree).map fun e => "made: " ++ e.path ++ "\n"
  let failure := match t.finish with
    | .crashed f => [f.message ++ "\n"]
    | _ => []
  let notes := t.log.map fun e => e.line Toml.Fault.message ++ "\n"
  (t.out.map Console.Item.text ++ gone ++ made, notes ++ t.err.map Console.Item.text ++ failure)

end DeletionGuard

open DeletionGuard

partial def readLines (stream : IO.FS.Stream) (seen : List String) : IO (List String) := do
  let line ← stream.getLine
  if line = "" then return seen.reverse
  else readLines stream (Text.stripEnd '\n' line :: seen)

def main (arguments : List String) : IO UInt32 := do
  match World.ofLines? (← readLines (← IO.getStdin) []) with
  | none =>
    IO.eprintln "the description of the world is not understood"
    return 2
  | some w =>
    let t := w.run arguments
    let (out, err) := t.texts w
    for s in out do IO.print s
    for s in err do IO.eprint s
    return UInt32.ofNat t.finish.status
