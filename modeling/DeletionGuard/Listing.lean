import DeletionGuard.Target

/-!
The leaves below a directory: files and links, also links to directories, which are not followed.
The first directory that cannot be read ends the listing.
-/
namespace DeletionGuard.World

structure Unlistable where
  directory : Path
  failure : Failure
  deriving DecidableEq, Repr

def subdirectories (directory : Path) (entries : List (String × Entry)) : List Path :=
  ((entries.filter (·.2.isDir)).map fun e => directory.child e.1).reverse

def leavesIn (directory : Path) (entries : List (String × Entry)) : List Path :=
  (entries.filter (!·.2.isDir)).map fun e => directory.child e.1

def gather (w : World) : Nat → List Path → Except Unlistable (List Path)
  | _, [] => .ok []
  | 0, directory :: _ => .error ⟨directory, .linkLoop directory.text⟩
  | n + 1, directory :: pending =>
    match w.list directory.text with
    | .error f => .error ⟨directory, f⟩
    | .ok entries =>
      (gather w n (subdirectories directory entries ++ pending)).map
        (leavesIn directory entries ++ ·)

/-- Every leaf below a directory. No directory is listed twice, so their number is a bound. -/
def leavesBelow (w : World) (directory : Path) : Except Unlistable (List Path) :=
  w.gather (w.tree.entries.length + 1) [directory]

end DeletionGuard.World
