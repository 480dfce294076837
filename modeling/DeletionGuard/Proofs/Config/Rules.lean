import DeletionGuard.Proofs.Config.Loading
import DeletionGuard.Proofs.Path.Seat
import DeletionGuard.Proofs.Target.Verifiable

/-!
Which rules allowed paths give: one for each path that can be resolved, in order. The directory of a
rule is the true place of what the system follows the path to, wherever the system gets to an end.
-/
namespace DeletionGuard
open FileTree
variable {w : World} {paths : List AllowedPath} {a : AllowedPath} {r : Rule} {rules : List Rule}

namespace World

def rule? (w : World) (a : AllowedPath) : Option Rule :=
  (w.directoryOf a.path).toOption.map (⟨·, a.recursive⟩)

end World
end DeletionGuard
