import DeletionGuard.Toml.Reader

/-!
Why bytes are no configuration file. A reader that can fail in more than one way gives the fault.
-/
namespace DeletionGuard.Toml

inductive Fault where
  | notText
  | malformed
  /-- A decimal integer has more digits than are read. -/
  | longNumber (digits : Nat)
  deriving DecidableEq, Repr

def Fault.message : Fault → String
  | notText => "not UTF-8 text"
  | malformed => "not a valid document"
  | longNumber digits => "a number of " ++ Nat.repr digits ++ " digits"

abbrev Checked (α : Type) := List Char → Except Fault (α × List Char)

def Reader.checked {α : Type} (r : Option (α × List Char)) : Except Fault (α × List Char) :=
  match r with
  | some found => .ok found
  | none => .error .malformed

end DeletionGuard.Toml
