import DeletionGuard.Proofs.Config.Rules
import DeletionGuard.Proofs.Config.Validation
import DeletionGuard.Proofs.Text.Joining

/-!
The table of allowed paths. A row is marked as dropped just if its path gives no rule, and every
other row shows the directory of its rule, in order, as far as escaping keeps the text of it, no
emoji is put in and the screen is wide enough.
-/
namespace DeletionGuard
open Console (Item)
open Markup
variable {w : World} {paths : List AllowedPath} {a : AllowedPath} {r : Rule} {rules : List Rule}
  {item : Item} {text shown : String} {s b x y more : List Char} {c : Config} {e : Emoji}

namespace Markup

def shownFor (e : Emoji) (text : String) : String :=
  (render e (escape text)).toOption.getD ""

end Markup

namespace World

def droppedNote : String :=
  "dropped (cannot resolve)"

def cell (w : World) (a : AllowedPath) : String :=
  (w.rule? a).elim droppedNote fun r => shownFor w.screen.emoji r.directory.text

end World

def Console.Item.places : Item → List String
  | .table _ _ rows => rows.filterMap (·[2]?)
  | _ => []

namespace World

end World
end DeletionGuard
