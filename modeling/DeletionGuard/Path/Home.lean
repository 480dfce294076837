import DeletionGuard.Path.Basic
import DeletionGuard.World

/-!
Home directories: a leading `~` or `~name` stands for one. Expansion is purely textual.
-/
namespace DeletionGuard.World

def homeOf (w : World) (user : String) : Option String :=
  if user = "" then
    match w.env.lookup "HOME" with
    | some home => some home
    | none => w.ownHome
  else w.users.lookup user

def expandUser (w : World) (path : String) : String :=
  match path.toList with
  | '~' :: cs =>
    match w.homeOf (String.ofList (cs.takeWhile (· ≠ '/'))) with
    | none => path
    | some home =>
      let expanded := Text.stripEnd '/' home ++ String.ofList (cs.dropWhile (· ≠ '/'))
      if expanded = "" then "/" else expanded
  | _ => path

def home (w : World) : Except Failure Path :=
  let path := w.expandUser "~"
  if Text.startsWith path "~" then .error .noHome else .ok (Path.ofString path)

end DeletionGuard.World
