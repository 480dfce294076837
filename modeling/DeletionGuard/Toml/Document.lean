import DeletionGuard.Toml.Statement

/-!
Configuration files: statements taken one after another into a table. A name is defined once; what
was written as a value is finished, and what a header or a dotted key declared is not declared
again.
-/
namespace DeletionGuard.Toml

structure Document where
  table : Table
  /-- The table that entries belong to. -/
  header : Key
  marks : Marks
  /-- The tables that dotted keys made since the header; the next header closes them. -/
  opened : List Key

namespace Document

def empty : Document :=
  ⟨[], [], [], []⟩

def close (d : Document) : Document :=
  { d with marks := d.opened.map (·, .declared) ++ d.marks, opened := [] }

def tablesOf (header key : Key) : List Key :=
  (List.range (key.length - 1)).map fun i => header ++ key.take (i + 1)

def addEntry (d : Document) (key : Key) (v : Value) : Option Document :=
  let through := tablesOf d.header key
  let holder := d.header ++ key.dropLast
  if through.any (d.marks.has · .declared) || d.marks.has holder .frozen then none
  else
    (d.table.modifyAt true (Table.insertNew (key.getLastD "") v) holder).map fun table =>
      { d with
        table
        opened := through ++ d.opened
        marks := if v.isNested then (d.header ++ key, .frozen) :: d.marks else d.marks }

def addTable (d : Document) (key : Key) : Option Document :=
  let d := d.close
  if d.marks.has key .declared || d.marks.has key .frozen then none
  else
    (d.table.modifyAt true some key).map fun table =>
      { d with table, header := key, marks := (key, .declared) :: d.marks }

def addItem (d : Document) (key : Key) : Option Document :=
  let d := d.close
  if d.marks.has key .frozen then none
  else
    (d.table.modifyAt true (Table.pushTable (key.getLastD "")) key.dropLast).map fun table =>
      { d with table, header := key, marks := (key, .declared) :: d.marks.clear key }

def step (d : Document) : Statement → Option Document
  | .entry key v => d.addEntry key v
  | .table key => d.addTable key
  | .item key => d.addItem key

def readOn : Nat → Document → List Char → Except Fault Document
  | 0, _, _ => .error .malformed
  | n + 1, d, cs =>
    match skipSpaces cs with
    | [] => .ok d
    | c :: cs =>
      if c = '\n' || c = '#' then
        match readLineEnd (c :: cs) with
        | none => .error .malformed
        | some cs => readOn n d cs
      else
        match readStatement (c :: cs) with
        | .error f => .error f
        | .ok (s, cs) =>
          match d.step s, readLineEnd cs with
          | some d, some cs => readOn n d cs
          | _, _ => .error .malformed

end Document

def joinBreaks : List Char → List Char
  | '\r' :: '\n' :: cs => '\n' :: joinBreaks cs
  | c :: cs => c :: joinBreaks cs
  | [] => []

/-- The table that a text describes. Each line takes one character at least. -/
def Table.ofText (s : String) : Except Fault Table :=
  let cs := joinBreaks s.toList
  (Document.readOn (cs.length + 1) .empty cs).map (·.table)

def Table.ofBytes (data : ByteArray) : Except Fault Table :=
  match String.fromUTF8? data with
  | none => .error .notText
  | some s => Table.ofText s

end DeletionGuard.Toml
