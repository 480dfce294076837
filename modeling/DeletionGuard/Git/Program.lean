import DeletionGuard.Path.Canonical
import DeletionGuard.Text.Blank

/-!
Questions put to git in a directory, and the repository that git reports.
-/
namespace DeletionGuard.World

inductive GitResult where
  | answered (out : String)
  /-- Git ran and failed; the text is what it complained. -/
  | exited (code : Int) (complaint : String)
  /-- Git could not be run. -/
  | notStarted (reason : String)
  deriving DecidableEq, Repr

/-- How git ends when it is run in a directory. -/
def askGit (w : World) (directory : Path) (q : Git.Query) : Except Failure GitResult :=
  let refusal (e : Errno) : GitResult :=
    .notStarted (Failure.callText e ++ ": PosixPath(" ++ Text.quoted directory.text ++ ")")
  match w.locate .follow directory.text with
  | .error (.call e _) => .ok (refusal e)
  | .error f => .error f
  | .ok l =>
    if !w.tree.isDir l then .ok (refusal .notDirectory)
    else
      match w.gitAt l with
      | none => .ok (.notStarted (Failure.callText .noEntry ++ ": 'git'"))
      | some answers =>
        let r := answers.reply q
        if r.code = 0 then .ok (.answered r.out)
        else .ok (.exited r.code (Text.strip r.err))

/-- The canonical top directory of the repository that holds a directory. -/
def repositoryRoot (w : World) (directory : Path) : Except Failure (Option Path) :=
  match w.askGit directory .topLevel with
  | .error f => .error f
  | .ok (.answered out) =>
    let top := Text.strip out
    if top = "" then .ok none else (w.resolveLenient (Path.ofString top)).map some
  | .ok _ => .ok none

/-- The boundary of deletion: the root of the repository, or else the directory itself. -/
def projectRoot (w : World) (directory : Path) : Except Failure Path :=
  match w.repositoryRoot directory with
  | .error f => .error f
  | .ok (some root) => .ok root
  | .ok none => w.resolveLenient directory

end DeletionGuard.World
