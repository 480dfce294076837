import DeletionGuard.Toml.Value

/-!
Nested tables addressed by dotted keys, and the marks that keep a table from being made twice.
-/
namespace DeletionGuard.Toml

abbrev Key := List String

def Table.replace (t : Table) (key : String) (v : Value) : Table :=
  t.map fun e => if e.1 = key then (key, v) else e

/-- A change of the table that a key leads to, which is made if need be. Where arrays are entered,
the key leads through the last item of one. It fails where something other than a table is in the
way. -/
def Table.modifyAt (enterArrays : Bool) (f : Table → Option Table) : Key → Table → Option Table
  | [], t => f t
  | k :: rest, t =>
    match List.lookup k t with
    | none => (modifyAt enterArrays f rest []).map fun u => t ++ [(k, .table u)]
    | some (.table u) => (modifyAt enterArrays f rest u).map fun u => t.replace k (.table u)
    | some (.array items) =>
      if !enterArrays then none
      else
        match items.getLast? with
        | some (.table u) =>
          (modifyAt enterArrays f rest u).map fun u =>
            t.replace k (.array (items.dropLast ++ [.table u]))
        | _ => none
    | some _ => none

def Table.insertNew (key : String) (v : Value) (t : Table) : Option Table :=
  if (List.lookup key t).isSome then none else some (t ++ [(key, v)])

def Table.pushTable (key : String) (t : Table) : Option Table :=
  match List.lookup key t with
  | none => some (t ++ [(key, .array [.table []])])
  | some (.array items) => some (t.replace key (.array (items ++ [.table []])))
  | some _ => none

inductive Mark where
  /-- It was declared by a header or a dotted key. -/
  | declared
  /-- It was written as a value, which cannot grow; neither can what lies in it. -/
  | frozen
  deriving DecidableEq, Repr

abbrev Marks := List (Key × Mark)

namespace Marks

/-- Whether a key bears a mark; a frozen key makes all keys below it frozen. -/
def has (m : Marks) (key : Key) (mark : Mark) : Bool :=
  m.any fun e => e.2 = mark && (e.1 = key || mark = .frozen && e.1.isPrefixOf key)

def clear (m : Marks) (key : Key) : Marks :=
  m.filter fun e => !key.isPrefixOf e.1

end Marks
end DeletionGuard.Toml
