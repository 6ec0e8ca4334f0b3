import Classmith.Number.Binary

/-!
# Shortest decimals

The decimal with the fewest digits that reads back as a given binary number, and of those the one
nearest to it. For one digit, two digits and so on, the two neighbours of the number on that decimal
grid are compared with the interval of reals that round to it.
-/
namespace Classmith.Number

/-- The decimal `digits * 10 ^ exponent`. -/
structure Decimal where
  digits : Nat
  exponent : Int
deriving DecidableEq, Repr, Inhabited

namespace Decimal

/-- Moves trailing zeros into the exponent. -/
def strip : (fuel : Nat) → Decimal → Decimal
  | 0, d => d
  | fuel + 1, d =>
    if d.digits ≠ 0 ∧ d.digits % 10 = 0 then strip fuel ⟨d.digits / 10, d.exponent + 1⟩ else d

end Decimal

/-- The number of decimal digits. -/
def digitCount (n : Nat) : Nat := (Nat.toDigits 10 n).length

/-- `a₁ / a₂ < b₁ / b₂`. -/
def ratioLt (a b : Nat × Nat) : Bool := a.1 * b.2 < b.1 * a.2

/-- `a₁ / a₂ ≤ b₁ / b₂`. -/
def ratioLe (a b : Nat × Nat) : Bool := a.1 * b.2 ≤ b.1 * a.2

/-- `n * 10 ^ k` as a quotient. -/
def decimalRatio (n : Nat) (k : Int) : Nat × Nat :=
  if 0 ≤ k then (n * Nat.pow 10 k.toNat, 1) else (n, Nat.pow 10 (-k).toNat)

/-- The reals that round to a number: its ends and whether they belong to it. -/
structure Interval where
  low : Nat × Nat
  high : Nat × Nat
  closed : Bool

def Interval.contains (i : Interval) (x : Nat × Nat) : Bool :=
  if i.closed then ratioLe i.low x && ratioLe x i.high else ratioLt i.low x && ratioLt x i.high

/-- The gap below a power of two is half the gap above it. -/
def Format.interval (f : Format) (m : Magnitude) : Interval :=
  let narrow := m.mantissa = Nat.pow 2 (f.precision - 1) ∧ f.minExponent < m.exponent
  let quarter (n : Nat) : Nat × Nat := Magnitude.toRatio ⟨n, m.exponent - 2⟩
  { low := quarter (4 * m.mantissa - if narrow then 1 else 2)
    high := quarter (4 * m.mantissa + 2)
    closed := m.mantissa % 2 = 0 }

/-- The place of the leading digit: `10 ^ e ≤ v < 10 ^ (e + 1)`. -/
def leadingPlace (v : Nat × Nat) : Int :=
  let e : Int := (digitCount v.1 : Int) - digitCount v.2
  if ratioLe (decimalRatio 1 e) v then e else e - 1

/-- The better of the two neighbours of `v` on the grid of multiples of `10 ^ k`, if one is in the
interval. -/
def neighbour? (i : Interval) (v : Nat × Nat) (k : Int) : Option Decimal :=
  let unit := decimalRatio 1 k
  let below := v.1 * unit.2 / (v.2 * unit.1)
  let inside (n : Nat) : Bool := i.contains (decimalRatio n k)
  let middle := decimalRatio (2 * below + 1) k
  let twice := (2 * v.1, v.2)
  match inside below, inside (below + 1) with
  | true, true =>
    if ratioLt twice middle then some ⟨below, k⟩
    else if ratioLt middle twice then some ⟨below + 1, k⟩
    else some ⟨if below % 2 = 0 then below else below + 1, k⟩
  | true, false => some ⟨below, k⟩
  | false, true => some ⟨below + 1, k⟩
  | false, false => none

/-- Tries finer and finer grids. -/
def shortestFrom (i : Interval) (v : Nat × Nat) : (tries : Nat) → (k : Int) → Decimal
  | 0, k => ⟨v.1 * (decimalRatio 1 k).2 / (v.2 * (decimalRatio 1 k).1), k⟩
  | tries + 1, k => (neighbour? i v k).getD (shortestFrom i v tries (k - 1))

/-- The shortest decimal of a number of a format; seventeen digits always suffice. -/
def Format.shortest (f : Format) (m : Magnitude) : Decimal :=
  if m.mantissa = 0 then ⟨0, 0⟩
  else (shortestFrom (f.interval m) m.toRatio 17 (leadingPlace m.toRatio)).strip 20

end Classmith.Number
