import DeletionGuard.Decimal.Shortest

/-!
How a double is written: the shortest digits that read back, positionally where the leading digit
stands between the fourth place after the point and the sixteenth before it, else with an exponent
of at least two digits.
-/
namespace DeletionGuard.Decimal

structure Layout where
  /-- Leading-digit exponents from here on are written positionally. -/
  plainFrom : Int
  /-- Leading-digit exponents from here on are not. -/
  plainBelow : Int
  /-- The least number of digits of an exponent. -/
  exponentWidth : Nat
  infinity : String
  notANumber : String

def Layout.values : Layout where
  plainFrom := -4
  plainBelow := 16
  exponentWidth := 2
  infinity := "inf"
  notANumber := "nan"

def zeros (n : Nat) : List Char :=
  List.replicate n '0'

def Layout.exponent (l : Layout) (e : Int) : List Char :=
  let ds := (Nat.repr e.natAbs).toList
  (if e < 0 then '-' else '+') :: (zeros (l.exponentWidth - ds.length) ++ ds)

def Layout.positive (l : Layout) (s : Scaled) : List Char :=
  let ds := (Nat.repr s.digits).toList
  let lead : Int := s.exponent + ds.length - 1
  if l.plainFrom ≤ lead ∧ lead < l.plainBelow then
    if lead < 0 then '0' :: '.' :: (zeros (-lead - 1).toNat ++ ds)
    else
      let whole := (lead + 1).toNat
      let padded := ds ++ zeros (whole - ds.length)
      let places := ds.drop whole
      padded.take whole ++ '.' :: (if places.isEmpty then ['0'] else places)
  else
    let places := ds.drop 1
    ds.take 1 ++ (if places.isEmpty then [] else '.' :: places) ++ 'e' :: l.exponent lead

def Layout.bits (l : Layout) (b : Nat) : String :=
  let sign := if b / Nat.pow 2 63 = 1 then "-" else ""
  let biased := b / Nat.pow 2 52 % Nat.pow 2 11
  let fraction := b % Nat.pow 2 52
  if biased = 2047 then
    if fraction = 0 then sign ++ l.infinity else l.notANumber
  else if biased = 0 && fraction = 0 then sign ++ "0.0"
  else
    let i := if biased = 0 then Interval.ofParts fraction 1
      else Interval.ofParts (Nat.pow 2 52 + fraction) biased
    sign ++ String.ofList (l.positive i.shortest)

def Layout.double (l : Layout) (x : Float) : String :=
  l.bits x.toBits.toNat

end DeletionGuard.Decimal
