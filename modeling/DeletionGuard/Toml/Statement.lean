import DeletionGuard.Toml.Moment
import DeletionGuard.Toml.Nest
import DeletionGuard.Toml.Number
import DeletionGuard.Toml.Quote

/-!
Statements of a configuration file: an entry, the header of a table, or the header of one more
table in an array. Each stands on a line of its own, apart from values that span several lines.
-/
namespace DeletionGuard.Toml

def isBare (c : Char) : Bool :=
  c.isAlphanum || c = '-' || c = '_'

def readKeyPart : Reader String := fun cs =>
  let bare := cs.takeWhile isBare
  if bare.isEmpty then readShort cs else some (String.ofList bare, cs.drop bare.length)

def readKeyParts : Nat → Reader Key
  | 0, _ => none
  | n + 1, cs =>
    match readKeyPart cs with
    | none => none
    | some (part, cs) =>
      match skipSpaces cs with
      | '.' :: cs => (readKeyParts n (skipSpaces cs)).map fun (key, cs) => (part :: key, cs)
      | cs => some ([part], cs)

def readKey : Reader Key := fun cs =>
  readKeyParts (cs.length + 1) cs

def skipLines : Nat → List Char → Option (List Char)
  | 0, cs => some cs
  | n + 1, cs =>
    match cs.dropWhile isSpaceOrNewline with
    | '#' :: cs => (skipComment ('#' :: cs)).bind (skipLines n)
    | cs => some cs

def skipFiller (cs : List Char) : Option (List Char) :=
  skipLines cs.length cs

def readWord : Reader Value := fun cs =>
  match after "true" cs, after "false" cs with
  | some cs, _ => some (.boolean true, cs)
  | none, some cs => some (.boolean false, cs)
  | none, none => none

def readAtom : Checked Value := fun cs =>
  match readDate cs with
  | some (d, rest) => if d.isDay then .ok (momentAfter d rest) else .error .malformed
  | none =>
    match (readTime cs).map (fun (t, cs) => (Value.time t, cs)) <|> readWord cs with
    | some found => .ok found
    | none => readNumber cs

/-- A table under construction within braces, with the marks of its own keys. -/
structure Inline where
  table : Table
  marks : Marks

def Inline.add (t : Inline) (key : Key) (v : Value) : Option Inline :=
  if t.marks.has key .frozen then none
  else
    (t.table.modifyAt false (Table.insertNew (key.getLastD "") v) key.dropLast).map fun table =>
      ⟨table, if v.isNested then (key, .frozen) :: t.marks else t.marks⟩

mutual

/-- A value, with parts nested up to a depth. -/
def readValue : Nat → Checked Value
  | 0, _ => .error .malformed
  | n + 1, cs =>
    match cs with
    | '"' :: _ | '\'' :: _ => Reader.checked ((readQuoted cs).map fun (s, cs) => (.string s, cs))
    | '[' :: cs =>
      match skipFiller cs with
      | none => .error .malformed
      | some (']' :: cs) => .ok (.array [], cs)
      | some cs => (readItems n cs).map fun (items, cs) => (.array items, cs)
    | '\x7b' :: cs =>
      match skipSpaces cs with
      | '\x7d' :: cs => .ok (.table [], cs)
      | cs => readEntries n ⟨[], []⟩ cs
    | cs => readAtom cs

/-- The items of an array up to its end. A comma may follow the last one. -/
def readItems : Nat → Checked (List Value)
  | 0, _ => .error .malformed
  | n + 1, cs =>
    match readValue n cs with
    | .error f => .error f
    | .ok (v, cs) =>
      match skipFiller cs with
      | some (']' :: cs) => .ok ([v], cs)
      | some (',' :: cs) =>
        match skipFiller cs with
        | some (']' :: cs) => .ok ([v], cs)
        | some cs => (readItems n cs).map fun (items, cs) => (v :: items, cs)
        | none => .error .malformed
      | _ => .error .malformed

/-- The entries of a table within braces up to its end. They stand on one line, and no comma
follows the last one. -/
def readEntries : Nat → Inline → Checked Value
  | 0, _, _ => .error .malformed
  | n + 1, t, cs =>
    match readKey cs with
    | some (key, '=' :: cs) =>
      match readValue n (skipSpaces cs) with
      | .error f => .error f
      | .ok (v, cs) =>
        match t.add key v with
        | none => .error .malformed
        | some t =>
          match skipSpaces cs with
          | '\x7d' :: cs => .ok (.table t.table, cs)
          | ',' :: cs => readEntries n t (skipSpaces cs)
          | _ => .error .malformed
    | _ => .error .malformed

end

inductive Statement where
  | entry (key : Key) (value : Value)
  | table (key : Key)
  | item (key : Key)

def readStatement : Checked Statement
  | '[' :: '[' :: cs =>
    match readKey (skipSpaces cs) with
    | some (key, ']' :: ']' :: cs) => .ok (.item key, cs)
    | _ => .error .malformed
  | '[' :: cs =>
    match readKey (skipSpaces cs) with
    | some (key, ']' :: cs) => .ok (.table key, cs)
    | _ => .error .malformed
  | cs =>
    match readKey cs with
    | some (key, '=' :: cs) =>
      (readValue (2 * cs.length + 2) (skipSpaces cs)).map fun (v, cs) => (.entry key v, cs)
    | _ => .error .malformed

def readLineEnd (cs : List Char) : Option (List Char) :=
  match skipComment (skipSpaces cs) with
  | some [] => some []
  | some ('\n' :: cs) => some cs
  | _ => none

end DeletionGuard.Toml
