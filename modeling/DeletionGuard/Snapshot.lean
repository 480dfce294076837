import DeletionGuard.World
import DeletionGuard.Path.Basic

/-!
Worlds built from a description: an empty one to start from, entries put in by path, and a form of
lines with fields between tabs. In a field `\n`, `\t`, `\0` and `\\` stand for a line break, a tab,
the character zero and a backslash.
-/
namespace DeletionGuard

def Git.Answers.noRepository : Git.Answers :=
  ⟨.noRepository, .noRepository, .noRepository⟩

def Git.Answers.withReply (a : Git.Answers) (r : Git.Reply) : Git.Query → Git.Answers
  | .topLevel => { a with topLevel := r }
  | .status => { a with status := r }
  | .files => { a with files := r }

namespace World

def blank : World where
  tree := .empty
  cwd := "/"
  env := []
  users := []
  ownHome := none
  git := some .noRepository
  trashError := none

/-- The location that a path names without looking at any link. -/
def locationOf (path : String) : Location :=
  (Path.ofString path).parts

def put (w : World) (path : String) (e : Entry) : World :=
  { w with tree := w.tree.put (locationOf path) e }

def remove (w : World) (path : String) : World :=
  w.without (locationOf path)

def unescape : List Char → List Char
  | '\\' :: 'n' :: cs => '\n' :: unescape cs
  | '\\' :: 't' :: cs => '\t' :: unescape cs
  | '\\' :: '0' :: cs => Text.nul :: unescape cs
  | '\\' :: '\\' :: cs => '\\' :: unescape cs
  | c :: cs => c :: unescape cs
  | [] => []

def fieldsOf (line : String) : List String :=
  (Text.cut '\t' line).map fun s => String.ofList (unescape s.toList)

def queryOf? : String → Option Git.Query
  | "root" => some .topLevel
  | "status" => some .status
  | "files" => some .files
  | _ => none

def withReply (w : World) (q : Git.Query) (r : Git.Reply) : World :=
  { w with git := some ((w.git.getD .noRepository).withReply r q) }

def applyFields (w : World) : List String → Option World
  | ["cwd", path] => some { w with cwd := path }
  | ["env", name, value] => some { w with env := (name, value) :: w.env }
  | ["user", name, home] => some { w with users := (name, home) :: w.users }
  | ["home", path] => some { w with ownHome := some path }
  | ["dir", path, deny] => some (w.put path (.dir (.ofLetters deny)))
  | ["file", path, deny, text] => some (w.put path (.file text.toUTF8 (.ofLetters deny)))
  | ["fifo", path, deny] => some (w.put path (.fifo (.ofLetters deny)))
  | ["link", path, target] => some (w.put path (.link target))
  | ["git", "none"] => some { w with git := none }
  | ["git", query, code, out, err] => do
    let q ← queryOf? query
    let n ← code.toNat?
    return w.withReply q ⟨n, out, err⟩
  | ["trash", text] => some { w with trashError := some text }
  | [""] => some w
  | _ => none

def ofLines? (lines : List String) : Option World :=
  lines.foldlM (fun w line => w.applyFields (fieldsOf line)) blank

end World
end DeletionGuard
