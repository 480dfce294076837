/-!
The git status of one path, as far as deleting it is concerned.
-/
namespace DeletionGuard.Git

inductive Status where
  | clean
  | modified
  | staged
  | untracked
  | ignored
  | notInRepo
  deriving DecidableEq, Repr

namespace Status

def all : List Status :=
  [clean, modified, staged, untracked, ignored, notInRepo]

def word : Status → String
  | clean => "Clean"
  | modified => "Modified"
  | staged => "Staged"
  | untracked => "Untracked"
  | ignored => "Ignored"
  | notInRepo => "NotInRepo"

def ofWord? (s : String) : Option Status :=
  all.find? (·.word = s)

theorem ofWord?_word (s : Status) : ofWord? s.word = some s := by
  cases s <;> decide

/-- Whether deleting the path would lose content that is not committed. -/
def isDirty : Status → Bool
  | modified | staged | untracked => true
  | clean | ignored | notInRepo => false

end Status
end DeletionGuard.Git
