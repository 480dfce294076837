/-!
Shortest decimals. A decimal `digits · 10 ^ exponent` reads back as a double exactly if it lies
in the interval of reals that round to it; among those with the fewest digits the nearest is
chosen, and of two equally near ones the even one.
-/
namespace DeletionGuard.Decimal

structure Scaled where
  digits : Nat
  exponent : Int
  deriving DecidableEq, Repr

/-- A positive double `value / unit` between the ends `low / unit` and `high / unit` of its
rounding interval; the ends belong to it if `closed`. -/
structure Interval where
  low : Nat
  value : Nat
  high : Nat
  unit : Nat
  closed : Bool
  deriving DecidableEq, Repr

/-- The interval of `mantissa · 2 ^ (biased - 1077)`, in quarters of the last place. Below a power
of two the gap is half as wide, except at the smallest exponent. -/
def Interval.ofParts (mantissa biased : Nat) : Interval :=
  let below := if mantissa = Nat.pow 2 52 && 1 < biased then 1 else 2
  let scale := if biased ≤ 1077 then 1 else Nat.pow 2 (biased - 1077)
  { low := (4 * mantissa - below) * scale
    value := 4 * mantissa * scale
    high := (4 * mantissa + 2) * scale
    unit := if biased ≤ 1077 then Nat.pow 2 (1077 - biased) else 1
    closed := mantissa % 2 = 0 }

def Interval.contains (i : Interval) (n m : Nat) : Bool :=
  let low := i.low * m
  let high := i.high * m
  let x := n * i.unit
  (low < x || i.closed && low = x) && (x < high || i.closed && x = high)

def powerOfTen (k : Int) : Nat × Nat :=
  (Nat.pow 10 k.toNat, Nat.pow 10 (-k).toNat)

def magnitudeFrom (i : Interval) : Nat → Int → Int
  | 0, k => k
  | fuel + 1, k =>
    let (num, den) := powerOfTen k
    if num * i.unit ≤ i.value * den then k else magnitudeFrom i fuel (k - 1)

def Interval.magnitude (i : Interval) : Int :=
  magnitudeFrom i 640 310

/-- The point of the grid of step `10 ^ k` that reads back and is nearest to the value. -/
def Interval.nearest (i : Interval) (k : Int) : Option Scaled :=
  let (num, den) := powerOfTen k
  let below := i.value * den / (i.unit * num)
  let reads (d : Nat) : Bool := i.contains (d * num) den
  let twice := 2 * (i.value * den)
  let middle := (2 * below + 1) * (i.unit * num)
  match reads below, reads (below + 1) with
  | true, true =>
    if twice < middle || twice = middle && below % 2 = 0 then some ⟨below, k⟩
    else some ⟨below + 1, k⟩
  | true, false => some ⟨below, k⟩
  | false, true => some ⟨below + 1, k⟩
  | false, false => none

def Scaled.reduceWith : Nat → Scaled → Scaled
  | 0, s => s
  | fuel + 1, s =>
    if s.digits ≠ 0 && s.digits % 10 = 0 then reduceWith fuel ⟨s.digits / 10, s.exponent + 1⟩
    else s

/-- The shortest decimal that reads back; seventeen digits always suffice. -/
def Interval.shortest (i : Interval) : Scaled :=
  let top := i.magnitude
  match (List.range 17).findSome? (fun n : Nat => i.nearest (top - n)) with
  | some s => s.reduceWith 20
  | none => ⟨i.value / i.unit, 0⟩

end DeletionGuard.Decimal
