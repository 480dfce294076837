import DeletionGuard.FileTree.Basic

/-!
How the system finds an entry: one component after another, with links followed on the way. A walk
follows at most forty links. It ends at a location that exists, except where an entry is to be
created, when the last name may be free.
-/
namespace DeletionGuard

/-- A path text as a walk reads it. -/
structure Route where
  absolute : Bool
  /-- The components that are not empty. -/
  steps : List String
  /-- Whether the text ends in a slash, so that the walk has to end at a directory. -/
  slashed : Bool
  deriving DecidableEq, Repr

def Route.ofString (s : String) : Route :=
  ⟨Text.startsWith s "/", (Text.cut '/' s).filter (· ≠ ""), Text.endsWith s "/"⟩

/-- What a walk does with its last component. -/
inductive Ending where
  /-- A link is the answer itself. -/
  | keep
  /-- A link is followed. -/
  | follow
  /-- A link is followed, and the name it leads to may be free. -/
  | create
  deriving DecidableEq, Repr

namespace FileTree

def maxName : Nat := 255

def maxPath : Nat := 4096

def maxLinks : Nat := 40

/-- A walk from a location along components. A followed link hands the components of its target,
and those after it, to `jump`. -/
def advance (t : FileTree) (ending : Ending)
    (jump : Location → List String → Bool → Except Errno Location) :
    Location → List String → Bool → Except Errno Location
  | here, [], slashed =>
    if slashed && !t.isDir here then .error .notDirectory else .ok here
  | here, s :: rest, slashed =>
    match t.find? here with
    | some (.dir deny) =>
      if deny.search then .error .noAccess
      else if s = "." then advance t ending jump here rest slashed
      else if s = ".." then advance t ending jump here.dropLast rest slashed
      else if maxName < s.utf8ByteSize then .error .nameTooLong
      else
        let next := here ++ [s]
        match t.find? next with
        | none =>
          if ending = .create && rest.isEmpty && !slashed then .ok next else .error .noEntry
        | some (.link target) =>
          if rest.isEmpty && !slashed && ending = .keep then .ok next
          else if target = "" then .error .noEntry
          else
            let r := Route.ofString target
            jump (if r.absolute then [] else here) (r.steps ++ rest)
              (slashed || rest.isEmpty && r.slashed)
        | some _ => advance t ending jump next rest slashed
    | _ => .error .notDirectory

/-- A walk that may still follow a number of links. -/
def walk (t : FileTree) (ending : Ending) :
    Nat → Location → List String → Bool → Except Errno Location
  | 0 => advance t ending fun _ _ _ => .error .tooManyLinks
  | n + 1 => advance t ending (walk t ending n)

def follow (t : FileTree) (ending : Ending) (start : Location) (r : Route) :
    Except Errno Location :=
  t.walk ending maxLinks (if r.absolute then [] else start) r.steps r.slashed

end FileTree
end DeletionGuard
