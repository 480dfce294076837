import DeletionGuard.Decimal.Limit
import DeletionGuard.Toml.Fault
import DeletionGuard.Toml.Value

/-!
Numbers. Single underscores may stand between digits; a leading zero stands alone.
-/
namespace DeletionGuard.Toml

def digitRun (isDigit : Char → Bool) : List Char → List Char × List Char
  | [] => ([], [])
  | '_' :: c :: cs =>
    if isDigit c then digitRun isDigit (c :: cs) else ([], '_' :: c :: cs)
  | c :: cs =>
    if isDigit c then
      let (digits, rest) := digitRun isDigit cs
      (c :: digits, rest)
    else ([], c :: cs)

def readDigits (isDigit : Char → Bool) : Reader (List Char)
  | c :: cs => if isDigit c then some (digitRun isDigit (c :: cs)) else none
  | [] => none

def readSign : List Char → Bool × List Char
  | '-' :: cs => (true, cs)
  | '+' :: cs => (false, cs)
  | cs => (false, cs)

def readWhole : Reader (List Char)
  | '0' :: cs => some (['0'], cs)
  | cs => readDigits Char.isDigit cs

def readPlaces : List Char → Option (List Char) × List Char
  | '.' :: cs =>
    match readDigits Char.isDigit cs with
    | some (digits, rest) => (some digits, rest)
    | none => (none, '.' :: cs)
  | cs => (none, cs)

def readExponent : List Char → Option Int × List Char
  | c :: cs =>
    if c = 'e' || c = 'E' then
      let (negative, digits) := readSign cs
      match readDigits Char.isDigit digits with
      | some (digits, rest) =>
        let n : Int := numberIn 10 digits
        (some (if negative then -n else n), rest)
      | none => (none, c :: cs)
    else (none, c :: cs)
  | [] => (none, [])

/-- The double nearest to `digits · 10 ^ exponent`. Beyond the range of doubles the digits do not
matter. -/
def toDouble (negative : Bool) (digits : List Char) (exponent : Int) : Float :=
  let mantissa := numberIn 10 digits
  let magnitude : Int := (Nat.repr mantissa).length + exponent
  let x : Float :=
    if mantissa = 0 || magnitude < -400 then 0.0
    else if 400 < magnitude then 1.0 / 0.0
    else Float.ofScientific mantissa (exponent < 0) exponent.natAbs
  if negative then -x else x

def readDecimal : Reader Value := fun cs =>
  let (negative, cs) := readSign cs
  match readWhole cs with
  | none => none
  | some (whole, cs) =>
    let (places, cs) := readPlaces cs
    let (exponent, cs) := readExponent cs
    if places.isNone && exponent.isNone then
      let n : Int := numberIn 10 whole
      some (.integer (if negative then -n else n), cs)
    else
      let places := places.getD []
      some (.float (toDouble negative (whole ++ places) (exponent.getD 0 - places.length)), cs)

def readBased (letter : Char) (base : Nat) (isDigit : Char → Bool) : Reader Value
  | '0' :: c :: cs =>
    if c = letter then
      (readDigits isDigit cs).map fun (digits, rest) =>
        (.integer (numberIn base digits : Nat), rest)
    else none
  | _ => none

def readSpecial : Reader Value := fun cs =>
  let (negative, rest) := readSign cs
  match after "inf" rest, after "nan" rest with
  | some rest, _ => some (.float (if negative then -(1.0 / 0.0) else 1.0 / 0.0), rest)
  | none, some rest => some (.float (0.0 / 0.0), rest)
  | none, none => none

def readMarked : Reader Value := fun cs =>
  readBased 'x' 16 isHexDigit cs
    <|> readBased 'b' 2 (fun c => c = '0' || c = '1') cs
    <|> readBased 'o' 8 (fun c => '0' ≤ c && c ≤ '7') cs

/-- A number. A decimal integer must not have too many digits; any other number may. -/
def readNumber : Checked Value := fun cs =>
  match readMarked cs, readDecimal cs with
  | some found, _ => .ok found
  | none, some (.integer n, rest) =>
    if Decimal.withinLimit n then .ok (.integer n, rest)
    else .error (.longNumber (Decimal.digitCount n))
  | none, some found => .ok found
  | none, none => Reader.checked (readSpecial cs)

end DeletionGuard.Toml
