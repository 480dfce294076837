import DeletionGuard.Failure
import DeletionGuard.Toml.Value

/-!
What a configuration file may say. A table that says anything else is refused as a whole, with one
violation for each thing that is wrong, in the order of the file's scheme.
-/
namespace DeletionGuard

open Toml (Table Value)

inductive Violation where
  | projectDeletion (found : Value)
  | notAnArray
  | notATable (index : Nat)
  | noPath (index : Nat)
  | recursive (index : Nat) (found : Value)

namespace Violation

def itemName (index : Nat) : String :=
  "Invalid allowed_paths[" ++ Nat.repr index ++ "]"

def notBoolean (found : Value) : String :=
  ": " ++ found.text ++ " (use: true, false)"

def message : Violation → String
  | projectDeletion found => "Invalid allow_project_deletion" ++ notBoolean found
  | notAnArray => "Invalid allowed_paths: expected an array of tables ([[allowed_paths]])"
  | notATable index => itemName index ++ ": expected a table"
  | noPath index => itemName index ++ ".path: expected a non-empty string"
  | recursive index found => itemName index ++ ".recursive" ++ notBoolean found

def isWritable : Violation → Bool
  | projectDeletion found | recursive _ found => found.isWritable
  | _ => true

def ofFlag (setting : Option Value) (violation : Value → Violation) : List Violation :=
  match setting with
  | none | some (.boolean _) => []
  | some found => [violation found]

def ofPath (index : Nat) (entry : Table) : List Violation :=
  match entry.setting "path" with
  | some (.string s) => if s = "" then [.noPath index] else []
  | _ => [.noPath index]

def ofItem (index : Nat) : Value → List Violation
  | .table entry =>
    ofPath index entry ++ ofFlag (Table.setting entry "recursive") (.recursive index)
  | _ => [.notATable index]

def ofItems (items : List Value) : List Violation :=
  items.zipIdx.flatMap fun (item, index) => ofItem index item

def ofTable (t : Table) : List Violation :=
  ofFlag (t.setting "allow_project_deletion") .projectDeletion ++
    match t.setting "allowed_paths" with
    | none => []
    | some (.array items) => ofItems items
    | some _ => [.notAnArray]

/-- One message for each violation, if all that they quote can be written. -/
def report (t : Table) : Except Failure (List String) :=
  if (ofTable t).all isWritable then .ok ((ofTable t).map message)
  else .error (.longNumber none)

end Violation
end DeletionGuard
