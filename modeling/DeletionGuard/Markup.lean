import DeletionGuard.Failure
import DeletionGuard.Text.Blank

/-!
Marked-up text: `[style]` opens a style and `[/style]` or `[/]` closes it. A backslash before a tag
takes the tag's meaning away. Escaping makes a text safe to put into marked-up text; rendering gives
the visible characters. Between tags, a code such as `:name:` stands for an emoji.
-/
namespace DeletionGuard
namespace Markup

def beginsTag (c : Char) : Bool :=
  c.isLower || c = '#' || c = '/' || c = '@'

/-- The text up to the bracket that closes a tag, without another opening bracket before it. -/
def untilClose : List Char → Option (List Char)
  | [] => none
  | c :: cs =>
    if c = ']' then some []
    else if c = '[' then none
    else (untilClose cs).map (c :: ·)

def tagInside : List Char → Option (List Char)
  | '[' :: c :: cs => if beginsTag c then (untilClose cs).map (c :: ·) else none
  | _ => none

structure Match where
  backslashes : Nat
  inside : List Char
  deriving DecidableEq, Repr

namespace Match

def length (m : Match) : Nat :=
  m.backslashes + m.inside.length + 2

def tag (m : Match) : List Char :=
  '[' :: (m.inside ++ [']'])

end Match

def matchAt (cs : List Char) : Option Match :=
  (tagInside (cs.dropWhile (· = '\\'))).map fun inside =>
    ⟨(cs.takeWhile (· = '\\')).length, inside⟩

/-- Escapes the tags of a text after a number of characters that belong to a tag already seen. -/
def escapeTags : Nat → List Char → List Char
  | _, [] => []
  | n + 1, c :: cs => c :: escapeTags n cs
  | 0, c :: cs =>
    match matchAt (c :: cs) with
    | some m => List.replicate (m.backslashes + 1) '\\' ++ c :: escapeTags (m.length - 1) cs
    | none => c :: escapeTags 0 cs

/-- A text made safe: each tag gets its backslashes doubled and one more, and a single backslash at
the end is doubled as well. -/
def escapeChars (cs : List Char) : List Char :=
  let out := escapeTags 0 cs
  if ['\\'].isSuffixOf out && !(['\\', '\\'].isSuffixOf out) then out ++ ['\\'] else out

def escape (s : String) : String :=
  String.ofList (escapeChars s.toList)

inductive Part where
  | plain (c : Char)
  | shown (cs : List Char)
  | tag (inside : List Char) (position : Nat)
  deriving DecidableEq, Repr

/-- The parts that a tag with its backslashes stands for: half of the backslashes, and the tag
itself only if their number is even. -/
def Match.parts (m : Match) (position : Nat) : List Part :=
  let half := m.backslashes / 2
  let shown := if half = 0 then [] else [Part.shown (List.replicate half '\\')]
  shown ++ [if m.backslashes % 2 = 1 then .shown m.tag else .tag m.inside (position + 2 * half)]

def partsFrom : Nat → Nat → List Char → List Part
  | _, _, [] => []
  | n + 1, position, _ :: cs => partsFrom n (position + 1) cs
  | 0, position, c :: cs =>
    match matchAt (c :: cs) with
    | some m => m.parts position ++ partsFrom (m.length - 1) (position + 1) cs
    | none => .plain c :: partsFrom 0 (position + 1) cs

def styleName (cs : List Char) : List Char :=
  (Text.strip (String.ofList cs)).toList.map Char.toLower

def tagName (inside : List Char) : List Char :=
  inside.takeWhile (· ≠ '=')

def stack (opened : List (List Char)) (inside : List Char) (position : Nat) :
    Except Failure (List (List Char)) :=
  match tagName inside with
  | '/' :: name =>
    let style := (Text.strip (String.ofList name)).toList
    if style = [] then
      match opened with
      | [] => .error (.nothingToClose position)
      | _ :: rest => .ok rest
    else if opened.contains (styleName style) then .ok (opened.erase (styleName style))
    else .error (.unmatchedTag (String.ofList ('[' :: (inside ++ [']']))) position)
  | name => .ok (styleName name :: opened)

/-- The visible characters of parts: the run that the first of them belong to, and the runs behind
it. A backslash before a bracket that opens no tag is not visible. -/
def runs : List (List Char) → List Part → Except Failure (List Char × List (List Char))
  | _, [] => .ok ([], [])
  | opened, .plain '\\' :: .plain '[' :: rest =>
    (runs opened rest).map fun (first, others) => ('[' :: first, others)
  | opened, .plain c :: rest =>
    (runs opened rest).map fun (first, others) => (c :: first, others)
  | opened, .shown cs :: rest =>
    (runs opened rest).map fun (first, others) => ([], cs :: first :: others)
  | opened, .tag inside position :: rest =>
    match stack opened inside position with
    | .error f => .error f
    | .ok opened => (runs opened rest).map fun (first, others) => ([], first :: others)

def isDropped (c : Char) : Bool :=
  c = '\x07' || c = '\x08' || c = '\x0B' || c = '\x0C' || c = '\x0D'

/-- The name of the code that begins with a colon before a text: what stands before the next colon,
if there is no blank in it. -/
def codeName : List Char → Option (List Char)
  | [] => none
  | c :: cs =>
    if c = ':' then some []
    else if Text.isBlank c then none
    else (codeName cs).map (c :: ·)

end Markup

/-- The emoji that stand for codes, by the names of these. -/
structure Emoji where
  find? : List Char → Option (List Char)
  bare : ∀ name shown, find? name = some shown → ':' ∉ shown ∧ '\t' ∉ shown

namespace Emoji

def none : Emoji where
  find? _ := .none
  bare _ _ := nofun

/-- A text with emoji for the codes in it, after a number of characters that belong to a code
already seen. A code without an emoji stays as it is. -/
def replaceFrom (e : Emoji) : Nat → List Char → List Char
  | _, [] => []
  | n + 1, _ :: cs => replaceFrom e n cs
  | 0, c :: cs =>
    match if c = ':' then Markup.codeName cs else .none with
    | some name =>
      (e.find? name).getD (':' :: (name ++ [':'])) ++ replaceFrom e (name.length + 1) cs
    | .none => c :: replaceFrom e 0 cs

def replace (e : Emoji) (cs : List Char) : List Char :=
  e.replaceFrom 0 cs

end Emoji

namespace Markup

/-- The visible text of a marked-up text. One without an opening bracket is a single run. -/
def render (e : Emoji) (s : String) : Except Failure String :=
  let visible :=
    if Text.holds '[' s then runs [] (partsFrom 0 0 s.toList) else .ok (s.toList, [])
  visible.map fun (first, others) =>
    String.ofList (((first :: others).flatMap e.replace).filter (!isDropped ·))

end Markup
end DeletionGuard
