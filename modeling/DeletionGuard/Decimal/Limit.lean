/-!
A limit on the digits of integers where they are read or written in decimal.
-/
namespace DeletionGuard.Decimal

/-- The most digits that an integer may have. -/
def digitLimit : Nat := 4300

def digitCount (n : Int) : Nat :=
  (Nat.repr n.natAbs).length

def withinLimit (n : Int) : Bool :=
  digitCount n ≤ digitLimit

end DeletionGuard.Decimal
