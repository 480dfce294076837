import DeletionGuard.World

/-!
What happened to a file tree between two moments, by path.
-/
namespace DeletionGuard

structure Written where
  path : String
  kind : String
  text : String
  deriving DecidableEq, Repr

namespace FileTree

def removedSince (old new : FileTree) : List String :=
  ((old.entries.filter fun e => (new.find? e.1).isNone).map fun e => World.pathOf e.1).mergeSort
    (· ≤ ·)

def writtenSince (old new : FileTree) : List Written :=
  ((new.entries.filter fun e => old.find? e.1 ≠ some e.2).map fun e =>
    (⟨World.pathOf e.1, e.2.kindWord, e.2.text⟩ : Written)).mergeSort (·.path ≤ ·.path)

end FileTree
end DeletionGuard
