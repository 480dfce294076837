import DeletionGuard.Toml.Reader
import DeletionGuard.Toml.Value

/-!
Dates and times. A text that has the form of a date but names no day of the calendar is an error,
not another kind of value.
-/
namespace DeletionGuard.Toml

def readFixed (width : Nat) : Reader Nat := fun cs =>
  let digits := cs.take width
  if digits.length = width && digits.all Char.isDigit then
    some (numberIn 10 digits, cs.drop width)
  else none

def readTwo (low high : Nat) : Reader Nat := fun cs =>
  (readFixed 2 cs).filter fun r => low ≤ r.1 && r.1 ≤ high

def readChar (c : Char) : List Char → Option (List Char)
  | d :: cs => if c = d then some cs else none
  | [] => none

/-- Microseconds, from digits after a point; those beyond the sixth are dropped. -/
def readFraction : List Char → Nat × List Char
  | '.' :: cs =>
    let digits := cs.takeWhile Char.isDigit
    if digits.isEmpty then (0, '.' :: cs)
    else
      let six := digits.take 6
      (numberIn 10 six * Nat.pow 10 (6 - six.length), cs.drop digits.length)
  | cs => (0, cs)

def readTime : Reader Time := fun cs => do
  let (hour, cs) ← readTwo 0 23 cs
  let cs ← readChar ':' cs
  let (minute, cs) ← readTwo 0 59 cs
  let cs ← readChar ':' cs
  let (second, cs) ← readTwo 0 59 cs
  let (microsecond, cs) := readFraction cs
  return (⟨hour, minute, second, microsecond⟩, cs)

/-- The form of a date: it need not name a day of the calendar. -/
def readDate : Reader Date := fun cs => do
  let (year, cs) ← readFixed 4 cs
  let cs ← readChar '-' cs
  let (month, cs) ← readTwo 1 12 cs
  let cs ← readChar '-' cs
  let (day, cs) ← readTwo 1 31 cs
  return (⟨year, month, day⟩, cs)

def isLeapYear (year : Nat) : Bool :=
  year % 4 = 0 && (year % 100 ≠ 0 || year % 400 = 0)

def daysIn (year month : Nat) : Nat :=
  if month = 2 then if isLeapYear year then 29 else 28
  else if month = 4 || month = 6 || month = 9 || month = 11 then 30
  else 31

def Date.isDay (d : Date) : Bool :=
  1 ≤ d.year && d.day ≤ daysIn d.year d.month

def readOffset : List Char → Option Int × List Char
  | c :: cs =>
    if c = 'Z' || c = 'z' then (some 0, cs)
    else if c = '+' || c = '-' then
      let read : Option (Int × List Char) := do
        let (hour, rest) ← readTwo 0 23 cs
        let rest ← readChar ':' rest
        let (minute, rest) ← readTwo 0 59 rest
        let n : Int := hour * 60 + minute
        return (if c = '-' then -n else n, rest)
      match read with
      | some (n, rest) => (some n, rest)
      | none => (none, c :: cs)
    else (none, c :: cs)
  | [] => (none, [])

def readTimeOfDay : List Char → Option ((Time × Option Int) × List Char)
  | c :: cs =>
    if c = 'T' || c = 't' || c = ' ' then
      (readTime cs).map fun (t, cs) =>
        let (offset, cs) := readOffset cs
        ((t, offset), cs)
    else none
  | [] => none

def momentAfter (d : Date) (cs : List Char) : Value × List Char :=
  match readTimeOfDay cs with
  | some ((t, offset), rest) => (.moment d t offset, rest)
  | none => (.date d, cs)

end DeletionGuard.Toml
