import DeletionGuard.Path.Canonical
import DeletionGuard.Path.Home

/-!
Allowed-path rules: directories in which deletion bypasses every other check. A rule holds the
canonical path of its directory; an entry whose directory cannot be resolved gives no rule.
-/
namespace DeletionGuard

structure AllowedPath where
  path : String
  recursive : Bool
  deriving DecidableEq, Repr

structure Rule where
  directory : Path
  /-- Whether the rule covers the directory and all below it, or only its direct children. -/
  recursive : Bool
  deriving DecidableEq, Repr

def Rule.covers (r : Rule) (p : Path) : Bool :=
  if r.recursive then p.isWithin r.directory
  else p.parent = r.directory && p ≠ r.directory

def covered (rules : List Rule) (p : Path) : Bool :=
  rules.any (·.covers p)

/-- What a step gives for the items that it does not pass over, up to its first failure. -/
def collect {α β ε : Type} (step : α → Except ε (Option β)) : List α → Except ε (List β)
  | [] => .ok []
  | a :: rest =>
    match step a with
    | .error e => .error e
    | .ok none => collect step rest
    | .ok (some b) => (collect step rest).map (b :: ·)

namespace World

def directoryOf (w : World) (path : String) : Except Failure Path :=
  w.resolveStrict (Path.ofString (w.expandUser path))

/-- The directory that a path names, if it can be resolved. Text that is no path at all is not
passed over but refused. -/
def directoryOf? (w : World) (path : String) : Except Failure (Option Path) :=
  match w.directoryOf path with
  | .ok directory => .ok (some directory)
  | .error f => if f = .nulInPath then .error f else .ok none

def rulesOf (w : World) (paths : List AllowedPath) : Except Failure (List Rule) :=
  collect (fun a => (w.directoryOf? a.path).map fun d? => d?.map fun d => ⟨d, a.recursive⟩) paths

end World
end DeletionGuard
