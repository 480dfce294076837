import DeletionGuard.Path.Canonical
import DeletionGuard.Path.Home

/-!
Targets: what a path argument names, seen without following a link at its end. An argument whose
ancestors cannot be examined has no target; it is never taken for a missing one.
-/
namespace DeletionGuard

structure Unverifiable where
  path : Path
  cause : Option Errno
  deriving DecidableEq, Repr

def Unverifiable.message (u : Unverifiable) : String :=
  "cannot resolve '" ++ u.path.text ++ "'" ++
    match u.cause with
    | some e => ": " ++ e.text
    | none => ""

inductive Kind where
  | missing
  | file
  | directory
  | symlink
  deriving DecidableEq, Repr

namespace Kind

def word : Kind → String
  | missing => "missing"
  | file => "file"
  | directory => "directory"
  | symlink => "symlink"

/-- The kind of an entry; whatever is neither a directory nor a link counts as a file. -/
def ofEntry : Entry → Kind
  | .dir _ => directory
  | .link _ => symlink
  | .file _ _ | .fifo _ => file

end Kind

structure Target where
  raw : String
  /-- The argument expanded and anchored at the base directory. -/
  absolute : Path
  /-- The canonical path of the entry itself; that of a link ends in the link. -/
  resolved : Path
  kind : Kind
  /-- Where a link leads. -/
  linkTarget : Option Path
  /-- The argument treats something as a directory that is none. -/
  notDirectory : Bool
  deriving DecidableEq, Repr

namespace Target

def exists? (t : Target) : Bool :=
  t.kind ≠ .missing

/-- Whether it is a real directory; a link to one is not. -/
def isDir (t : Target) : Bool :=
  t.kind = .directory

/-- Whether the target lies within a boundary, and where it leads as well. -/
def isWithin (t : Target) (boundary : Path) : Bool :=
  t.resolved.isWithin boundary &&
    match t.linkTarget with
    | some p => p.isWithin boundary
    | none => true

end Target

namespace World

def absolutePath (w : World) (base : Path) (raw : String) : Path :=
  base.join (Path.ofString (w.expandUser raw))

inductive Obstacle where
  | unverifiable (u : Unverifiable)
  /-- A failure that is not a matter of the file tree. -/
  | failure (f : Failure)
  deriving DecidableEq, Repr

/-- The kind of the entry at a path, and whether the path runs through something that is no
directory. -/
def observe (w : World) (p : Path) : Except Failure (Kind × Bool) :=
  match w.lstat p.text with
  | .ok e => .ok (.ofEntry e, false)
  | .error (.call .noEntry _) => .ok (.missing, false)
  | .error (.call .notDirectory _) => .ok (.missing, true)
  | .error f => .error f

/-- Where a path that was observed to be of a kind has its canonical place. With a trailing slash
a link to a directory stands for the directory. -/
def place (w : World) (raw : String) (absolute : Path) (slashed : Bool) (kind : Kind)
    (notDirectory : Bool) : Except Failure Target :=
  match kind with
  | .symlink =>
    (w.resolveStrict absolute.parent).bind fun parent =>
    (w.resolveLenient absolute).bind fun destination =>
    let link : Target :=
      { raw, absolute, resolved := parent.child absolute.name, kind,
        linkTarget := some destination, notDirectory }
    if slashed then
      (w.isDir destination.text).map fun isDir =>
        if isDir then
          { link with kind := .directory, resolved := destination, linkTarget := none }
        else { link with notDirectory := true }
    else .ok link
  | .missing =>
    (w.resolveLenient absolute).map fun resolved =>
      { raw, absolute, resolved, kind, linkTarget := none, notDirectory }
  | .file | .directory =>
    (w.resolveStrict absolute).map fun resolved =>
      { raw, absolute, resolved, kind, linkTarget := none,
        notDirectory := notDirectory || slashed && kind = .file }

/-- A failure to examine a path makes the path unverifiable; only text that is no path at all is
beyond that. -/
def obstacle (absolute : Path) (f : Failure) : Obstacle :=
  if f = .nulInPath then .failure f else .unverifiable ⟨absolute, f.errno?⟩

def resolve (w : World) (base : Path) (raw : String) : Except Obstacle Target :=
  let absolute := w.absolutePath base raw
  ((w.observe absolute).bind fun (kind, notDirectory) =>
    w.place raw absolute (Text.endsWith raw "/") kind notDirectory).mapError (obstacle absolute)

end World
end DeletionGuard
