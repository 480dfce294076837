import DeletionGuard.Rule
import DeletionGuard.Toml.Value

/-!
Drafts of a configuration: what a value says about one, whether or not it makes sense. A draft asks
only that each allowed path is described by a table that gives a path.
-/
namespace DeletionGuard

open Toml (Value)

structure PathDraft where
  path : Value
  recursive : Value

structure Draft where
  allowProjectDeletion : Value
  allowedPaths : List PathDraft

inductive Misfit where
  | notATable (found : Value)
  | noItems (found : Value)
  | notDescribed (found : Value)
  | noPath
  | notText (found : Value)
  | failure (f : Failure)

/-- The items of a value: those of an array, the names in a table or the characters of a text. -/
def itemsOf : Value → Except Misfit (List Value)
  | .array items => .ok items
  | .table entries => .ok (entries.map fun e => .string e.1)
  | .string s => .ok (s.toList.map fun c => .string (String.singleton c))
  | found => .error (.noItems found)

namespace PathDraft

def ofValue : Value → Except Misfit PathDraft
  | .table entry =>
    match entry.lookup "path" with
    | some path => .ok ⟨path, (entry.lookup "recursive").getD (.boolean false)⟩
    | none => .error .noPath
  | found => .error (.notDescribed found)

end PathDraft

namespace Draft

def ofValue : Value → Except Misfit Draft
  | .table t =>
    (itemsOf ((t.lookup "allowed_paths").getD (.array []))).bind fun items =>
    (items.mapM PathDraft.ofValue).map fun paths =>
      ⟨(t.lookup "allow_project_deletion").getD (.boolean true), paths⟩
  | found => .error (.notATable found)

/-- Whether a draft from no file says what the absence of a file says. The number one counts as
true. -/
def isDefault (d : Draft) : Bool :=
  d.allowedPaths.isEmpty &&
    match d.allowProjectDeletion with
    | .boolean b => b
    | .integer n => n = 1
    | _ => false

end Draft

def World.directoryOfDraft (w : World) (p : PathDraft) : Except Misfit (Option (Path × Value)) :=
  match p.path with
  | .string path =>
    match w.directoryOf? path with
    | .ok d? => .ok (d?.map (·, p.recursive))
    | .error f => .error (.failure f)
  | found => .error (.notText found)

def World.directoriesOf (w : World) (d : Draft) : Except Misfit (List (Path × Value)) :=
  collect w.directoryOfDraft d.allowedPaths

end DeletionGuard
