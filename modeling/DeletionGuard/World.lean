import DeletionGuard.Console
import DeletionGuard.FileTree.Walk

/-!
The world a run acts in: files, current directory, environment, users, what git would answer, the
trash and the screen. Calls on it take path texts and fail as the system does.
-/
namespace DeletionGuard

def FileTree.mayChange (t : FileTree) (directory : Location) : Bool :=
  match t.find? directory with
  | some (.dir deny) => !deny.write && !deny.search
  | _ => false

/-- What a trash does with the entry that a path leads to: it takes the entry away, and nothing
else, or it refuses as the system would. The answer depends on what lies on the way to the entry. -/
structure Trash where
  refusal : FileTree → Location → String → Option Failure
  system : ∀ t l path f, refusal t l path = some f → f.isSystem = true
  steady : ∀ t t' l path, (∀ k, k <+: l → t.find? k = t'.find? k) →
    refusal t l path = refusal t' l path

/-- A trash that takes what the directory above it lets go. -/
def Trash.plain : Trash where
  refusal t l path := if t.mayChange l.dropLast then none else some (.call .noAccess path)
  system t l path f h := by
    split at h
    · exact absurd h nofun
    · rw [← Option.some.inj h]
      rfl
  steady t t' l path h := by
    have hsame := h l.dropLast (List.dropLast_prefix l)
    rw [FileTree.mayChange, FileTree.mayChange, hsame]

namespace Git

structure Reply where
  code : Int
  out : String
  err : String
  deriving DecidableEq, Repr

def Reply.noRepository : Reply where
  code := 128
  out := ""
  err := "fatal: not a git repository (or any of the parent directories): .git\n"

inductive Query where
  | topLevel
  | status
  | files
  deriving DecidableEq, Repr

def Query.arguments : Query → List String
  | .topLevel => ["rev-parse", "--show-toplevel"]
  | .status => ["status", "--porcelain=v1", "-z", "--ignored=matching", "--untracked-files=all"]
  | .files => ["ls-files", "-z"]

structure Answers where
  topLevel : Reply
  status : Reply
  files : Reply
  deriving DecidableEq, Repr

def Answers.reply (a : Answers) : Query → Reply
  | .topLevel => a.topLevel
  | .status => a.status
  | .files => a.files

end Git

structure World where
  tree : FileTree
  /-- The current directory as text; it need not exist. -/
  cwd : String
  env : List (String × String)
  /-- Home directories by user name. -/
  users : List (String × String)
  /-- The home directory that the user database holds for the current user. -/
  ownHome : Option String
  git : Option Git.Answers
  /-- The text with which every call of the trash fails, if it does. -/
  trashError : Option String
  /-- What git answers in a directory for which the repository is set up otherwise. -/
  gitIn : Location → Option Git.Answers := fun _ => none
  trash : Trash := .plain
  screen : Screen := .plain

namespace World

def gitAt (w : World) (directory : Location) : Option Git.Answers :=
  w.git.map (w.gitIn directory).getD

def cwdLocation (w : World) : Except Errno Location :=
  w.tree.follow .follow [] (Route.ofString w.cwd)

def locate (w : World) (ending : Ending) (path : String) : Except Failure Location :=
  if Text.holds Text.nul path then .error .nulInPath
  else
    let found : Except Errno Location :=
      if FileTree.maxPath ≤ path.utf8ByteSize then .error .nameTooLong
      else if path = "" then .error .noEntry
      else
        let r := Route.ofString path
        if r.absolute then w.tree.follow ending [] r
        else w.cwdLocation.bind fun start => w.tree.follow ending start r
    found.mapError (.call · path)

def entryAt (w : World) (ending : Ending) (path : String) : Except Failure Entry :=
  (w.locate ending path).bind fun l =>
    match w.tree.find? l with
    | some e => .ok e
    | none => .error (.call .noEntry path)

/-- The entry at a path, where a link is an entry itself. -/
def lstat (w : World) (path : String) : Except Failure Entry :=
  w.entryAt .keep path

/-- The entry at a path, with links followed. -/
def stat (w : World) (path : String) : Except Failure Entry :=
  w.entryAt .follow path

def lexists (w : World) (path : String) : Bool :=
  match w.lstat path with
  | .ok _ => true
  | .error _ => false

def meansAbsent : Failure → Bool
  | .call .noEntry _ | .call .notDirectory _ | .call .tooManyLinks _ | .nulInPath => true
  | _ => false

/-- A test on the entry a path leads to. A path that leads to nothing fails it; any other error is
reported. -/
def test (w : World) (p : Entry → Bool) (path : String) : Except Failure Bool :=
  match w.stat path with
  | .ok e => .ok (p e)
  | .error f => if meansAbsent f then .ok false else .error f

def isFile (w : World) (path : String) : Except Failure Bool :=
  w.test Entry.isFile path

def isDir (w : World) (path : String) : Except Failure Bool :=
  w.test Entry.isDir path

def exists? (w : World) (path : String) : Except Failure Bool :=
  w.test (fun _ => true) path

def pathOf (l : Location) : String :=
  "/" ++ Text.glue '/' l

def getcwd (w : World) : Except Failure String :=
  match w.cwdLocation with
  | .ok l => if w.tree.isDir l then .ok (pathOf l) else .error .noWorkingDirectory
  | .error _ => .error .noWorkingDirectory

def list (w : World) (path : String) : Except Failure (List (String × Entry)) :=
  (w.locate .follow path).bind fun l =>
    match w.tree.find? l with
    | some (.dir deny) =>
      if deny.read then .error (.call .noAccess path) else .ok (w.tree.children l)
    | _ => .error (.call .notDirectory path)

def read (w : World) (path : String) : Except Failure ByteArray :=
  (w.stat path).bind fun e =>
    match e with
    | .dir _ => .error (.call .isDirectory path)
    | .file data deny => if deny.read then .error (.call .noAccess path) else .ok data
    | .fifo deny => if deny.read then .error (.call .noAccess path) else .ok ByteArray.empty
    | .link _ => .error (.call .tooManyLinks path)

def readable (w : World) (path : String) : Bool :=
  match w.stat path with
  | .ok e => !e.deny.read
  | .error _ => false

def mayChange (w : World) (directory : Location) : Bool :=
  w.tree.mayChange directory

def without (w : World) (l : Location) : World :=
  { w with tree := w.tree.erase l }

def unlink (w : World) (path : String) : Except Failure World :=
  (w.locate .keep path).bind fun l =>
    if l = [] then .error (.call .isDirectory path)
    else if !w.mayChange l.dropLast then .error (.call .noAccess path)
    else if w.tree.isDir l then .error (.call .isDirectory path)
    else .ok (w.without l)

def rmdir (w : World) (path : String) : Except Failure World :=
  (w.locate .keep path).bind fun l =>
    if l = [] then .error (.call .busy path)
    else if !w.mayChange l.dropLast then .error (.call .noAccess path)
    else if !w.tree.isDir l then .error (.call .notDirectory path)
    else if !(w.tree.children l).isEmpty then .error (.call .notEmpty path)
    else .ok (w.without l)

def discard (w : World) (path : String) : Except Failure World :=
  match w.trashError with
  | some text => .error (.trash text)
  | none =>
    (w.locate .keep path).bind fun l =>
      if l = [] then .error (.call .isDirectory path)
      else
        match w.trash.refusal w.tree l path with
        | some f => .error f
        | none => .ok (w.without l)

def mkdir (w : World) (path : String) : Except Failure World :=
  match w.lstat path with
  | .ok _ => .error (.call .exists path)
  | .error _ =>
    (w.locate .create path).bind fun l =>
      if (w.tree.find? l).isSome then .error (.call .exists path)
      else if !w.mayChange l.dropLast then .error (.call .noAccess path)
      else .ok { w with tree := w.tree.graft l (.dir .nothing) }

def write (w : World) (path : String) (data : ByteArray) : Except Failure World :=
  (w.locate .create path).bind fun l =>
    match w.tree.find? l with
    | some (.dir _) => .error (.call .isDirectory path)
    | some e =>
      if e.deny.write then .error (.call .noAccess path)
      else .ok { w with tree := w.tree.setData l data }
    | none =>
      if !w.mayChange l.dropLast then .error (.call .noAccess path)
      else .ok { w with tree := w.tree.graft l (.file data .nothing) }

end World
end DeletionGuard
