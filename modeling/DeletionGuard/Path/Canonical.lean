import DeletionGuard.Path.Basic
import DeletionGuard.World

/-!
Canonical paths. The components are taken from the left onto a path that holds no link; a link is
resolved in its place, and finished links are remembered. The strict form fails where a component
cannot be examined; the lenient form takes such a component as it is, and stops at a link that
leads to itself.
-/
namespace DeletionGuard.World

/-- The links met so far, with the path each leads to once that is known. -/
abbrev Memo := List (Path × Option Path)

inductive Progress where
  /-- To its end. -/
  | reached (path : Path) (memo : Memo)
  /-- To a link that leads to itself; the components after it are kept as text. -/
  | stuck (path : Path)
  deriving DecidableEq, Repr

def remainder (pieces : List String) : Path :=
  Path.ofString (Text.glue '/' pieces)

/-- Takes pieces of text onto a path. The target of a link is handed to `enter`. -/
def scan (w : World) (strict : Bool) (enter : Path → String → Memo → Except Failure Progress) :
    Path → List String → Memo → Except Failure Progress
  | here, [], memo => .ok (.reached here memo)
  | here, s :: rest, memo =>
    if !Path.isPart s then scan w strict enter here rest memo
    else if s = ".." then scan w strict enter here.ascend rest memo
    else
      let next := here.child s
      match w.lstat next.text with
      | .error f =>
        if strict || f = .nulInPath then .error f else scan w strict enter next rest memo
      | .ok (.link target) =>
        match memo.lookup next with
        | some (some known) => scan w strict enter known rest memo
        | some none =>
          if strict then
            match w.stat next.text with
            | .error f => .error f
            | .ok _ => .error (.linkLoop next.text)
          else .ok (.stuck (next.join (remainder rest)))
        | none =>
          match enter here target ((next, none) :: memo) with
          | .error f => .error f
          | .ok (.stuck path) => .ok (.stuck (path.join (remainder rest)))
          | .ok (.reached known memo) =>
            scan w strict enter known rest ((next, some known) :: memo)
      | .ok _ => scan w strict enter next rest memo

def resolveText (w : World) (strict : Bool) :
    Nat → Path → String → Memo → Except Failure Progress
  | 0, here, _, _ => .error (.linkLoop here.text)
  | depth + 1, here, text, memo =>
    scan w strict (resolveText w strict depth)
      (if Text.startsWith text "/" then ⟨.single, []⟩ else here) (Text.cut '/' text) memo

/-- No chain of nested links is longer: each has a spelling of its own, of bounded length. -/
def maxDepth (w : World) : Nat :=
  w.tree.entries.length * FileTree.maxPath + 1

def anchor (w : World) (p : Path) : Except Failure Path :=
  if p.isAbsolute then .ok p.collapse
  else w.getcwd.map fun cwd => ((Path.ofString cwd).join p).collapse

/-- A path with all links resolved, as far as the form asks for. -/
def realPath (w : World) (strict : Bool) (p : Path) : Except Failure Path :=
  match w.resolveText strict w.maxDepth ⟨.relative, []⟩ p.text [] with
  | .error f => .error f
  | .ok (.reached q _) | .ok (.stuck q) => w.anchor q

/-- Too many links in one walk mean that the links lead in a circle. -/
def circular : Failure → Failure
  | .call .tooManyLinks path => .linkLoop path
  | f => f

/-- The canonical path of something that exists. -/
def resolveStrict (w : World) (p : Path) : Except Failure Path :=
  (w.realPath true p).mapError circular

/-- The canonical path of something that need not exist. -/
def resolveLenient (w : World) (p : Path) : Except Failure Path :=
  match w.realPath false p with
  | .error f => .error (circular f)
  | .ok q =>
    match w.stat q.text with
    | .error (.call .tooManyLinks path) => .error (.linkLoop path)
    | .error .nulInPath => .error .nulInPath
    | _ => .ok q

end DeletionGuard.World
