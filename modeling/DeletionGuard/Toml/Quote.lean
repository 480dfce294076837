import DeletionGuard.Toml.Reader

/-!
Quoted text. Double quotes take escapes, single quotes take everything as it is; three of either
enclose a text of several lines.
-/
namespace DeletionGuard.Toml

def readCode (width : Nat) : Reader (List Char) := fun cs =>
  let digits := cs.take width
  if digits.length = width && digits.all isHexDigit then
    let n := numberIn 16 digits
    if n.isValidChar then some ([Char.ofNat n], cs.drop width) else none
  else none

/-- What a backslash stands for, from the characters after it. At the end of a line of a long text
it takes the line break and the blanks after it away. -/
def readEscape (long : Bool) : Reader (List Char)
  | 'u' :: cs => readCode 4 cs
  | 'U' :: cs => readCode 8 cs
  | 'b' :: cs => some (['\x08'], cs)
  | 't' :: cs => some (['\t'], cs)
  | 'n' :: cs => some (['\n'], cs)
  | 'f' :: cs => some (['\x0c'], cs)
  | 'r' :: cs => some (['\r'], cs)
  | '"' :: cs => some (['"'], cs)
  | '\\' :: cs => some (['\\'], cs)
  | cs =>
    if !long || cs.head?.all (!isSpaceOrNewline ·) then none
    else
      match skipSpaces cs with
      | [] => some ([], [])
      | '\n' :: rest => some ([], rest.dropWhile isSpaceOrNewline)
      | _ => none

def readDouble (long : Bool) : Nat → Reader (List Char)
  | 0, _ => none
  | _, [] => none
  | n + 1, '"' :: cs =>
    if !long then some ([], cs)
    else
      match cs with
      | '"' :: '"' :: rest => some ([], rest)
      | _ => (readDouble long n cs).map fun (s, rest) => ('"' :: s, rest)
  | n + 1, '\\' :: cs =>
    match readEscape long cs with
    | none => none
    | some (e, cs) => (readDouble long n cs).map fun (s, rest) => (e ++ s, rest)
  | n + 1, c :: cs =>
    if isIllegal c && !(long && c = '\n') then none
    else (readDouble long n cs).map fun (s, rest) => (c :: s, rest)

def readSingle : Reader (List Char)
  | [] => none
  | '\'' :: cs => some ([], cs)
  | c :: cs =>
    if isIllegal c then none else (readSingle cs).map fun (s, rest) => (c :: s, rest)

def readSingleLong : Reader (List Char)
  | [] => none
  | '\'' :: '\'' :: '\'' :: cs => some ([], cs)
  | c :: cs =>
    if isIllegal c && c ≠ '\n' then none
    else (readSingleLong cs).map fun (s, rest) => (c :: s, rest)

/-- Up to two quotes right after the closing ones belong to the text. -/
def trailingQuotes (quote : Char) : List Char × List Char → List Char × List Char
  | (s, c :: d :: rest) =>
    if c ≠ quote then (s, c :: d :: rest)
    else if d ≠ quote then (s ++ [quote], d :: rest)
    else (s ++ [quote, quote], rest)
  | (s, [c]) => if c = quote then (s ++ [quote], []) else (s, [c])
  | (s, []) => (s, [])

def skipFirstBreak : List Char → List Char
  | '\n' :: cs => cs
  | cs => cs

def readShort : Reader String
  | '"' :: cs => (readDouble false (cs.length + 1) cs).map fun (s, rest) => (String.ofList s, rest)
  | '\'' :: cs => (readSingle cs).map fun (s, rest) => (String.ofList s, rest)
  | _ => none

def readQuoted : Reader String
  | '"' :: '"' :: '"' :: cs =>
    let cs := skipFirstBreak cs
    (readDouble true (cs.length + 1) cs).map fun r =>
      let (s, rest) := trailingQuotes '"' r
      (String.ofList s, rest)
  | '\'' :: '\'' :: '\'' :: cs =>
    (readSingleLong (skipFirstBreak cs)).map fun r =>
      let (s, rest) := trailingQuotes '\'' r
      (String.ofList s, rest)
  | cs => readShort cs

end DeletionGuard.Toml
