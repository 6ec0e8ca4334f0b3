import Classmith.Number.Shortest

/-!
# Numerals

A numeral is a number as it is written: sign, whole part, fraction digits and exponent. This module
says what a numeral denotes (a word, a 32-bit or a 64-bit number), how it is spelled, and which
numeral a binary number is written as.
-/
namespace Classmith.Number

/-- A number as written. `fraction` holds the digits after the point, none if there is no point. -/
structure Numeral where
  negative : Bool
  whole : Nat
  fraction : List Nat
  exponent : Option Int
deriving DecidableEq, Repr, Inhabited

namespace Numeral

def ofInt (n : Int) : Numeral := ⟨n < 0, n.natAbs, [], none⟩

/-- The spelling of a decimal digit. -/
def digit (n : Nat) : Char := Nat.digitChar n

/-- The spelling of a numeral; the sign of an exponent is always written. -/
def text (n : Numeral) : String :=
  let sign := if n.negative then "-" else ""
  let point := if n.fraction.isEmpty then "" else "." ++ String.ofList (n.fraction.map digit)
  let power := match n.exponent with
    | none => ""
    | some e => (if e < 0 then "e-" else "e+") ++ toString e.natAbs
  sign ++ toString n.whole ++ point ++ power

/-- The integer a numeral without point and exponent denotes, if it fits 64 bits, signed when
negative. Negative zero is no integer. -/
def word? (n : Numeral) : Option Int :=
  if n.fraction.isEmpty && n.exponent.isNone then
    if n.negative then
      if 0 < n.whole ∧ n.whole ≤ 0x8000000000000000 then some (-(n.whole : Int)) else none
    else if n.whole < 0x10000000000000000 then some n.whole else none
  else none

/-- Drops last digits until what is left fits 64 bits, and counts them. -/
def fit (n : Nat) : Nat × Nat :=
  if n < 0x10000000000000000 then (n, 0)
  else
    let (kept, dropped) := fit (n / 10)
    (kept, dropped + 1)
termination_by n
decreasing_by omega

/-- Appends digits to a significand as long as it fits 64 bits, and counts them. -/
def absorb (significand : Nat) : List Nat → Nat × Nat
  | [] => (significand, 0)
  | d :: rest =>
    if significand * 10 + d < 0x10000000000000000 then
      let (s, count) := absorb (significand * 10 + d) rest
      (s, count + 1)
    else (significand, 0)

/-- The significand that fits 64 bits, and its power of ten. -/
def scaled (n : Numeral) : Nat × Int :=
  let (kept, dropped) := fit n.whole
  let (significand, used) := absorb kept n.fraction
  (significand, n.exponent.getD 0 + dropped - used)

end Numeral

/-- The greatest power of ten among the 64-bit numbers. -/
def maxPower : Nat := 308

/-- A power of ten as a 64-bit number. -/
def power (k : Nat) : Magnitude := (Format.double.round? (Nat.pow 10 k) 1).getD default

/-- The product of 64-bit numbers, rounded. -/
def product? (a b : Magnitude) : Option Magnitude :=
  Format.double.round? (a.toRatio.1 * b.toRatio.1) (a.toRatio.2 * b.toRatio.2)

/-- The quotient of 64-bit numbers, rounded. -/
def quotient (a b : Magnitude) : Magnitude :=
  (Format.double.round? (a.toRatio.1 * b.toRatio.2) (a.toRatio.2 * b.toRatio.1)).getD default

/-- Divides by `10 ^ k`, by the greatest power at a time. -/
def shrink (m : Magnitude) (k : Nat) : Magnitude :=
  if k ≤ maxPower then quotient m (power k)
  else if m.mantissa = 0 then m
  else shrink (quotient m (power maxPower)) (k - maxPower)
termination_by k
decreasing_by simp only [maxPower] at *; omega

/-- `significand * 10 ^ k` as a 64-bit number: the significand is rounded first and the scaled value
again. None if it lies past the largest. -/
def scale? (significand : Nat) (k : Int) : Option Magnitude :=
  (Format.double.round? significand 1).bind fun m =>
    if k < 0 then some (shrink m k.natAbs)
    else if k ≤ maxPower then product? m (power k.toNat)
    else if m.mantissa = 0 then some m
    else none

namespace Numeral

/-- The 64-bit number a numeral denotes, none if it is out of range. -/
def double? (n : Numeral) : Option Double :=
  match n.word? with
  | some i => some (Double.ofMagnitude (i < 0) (Format.double.round? i.natAbs 1))
  | none => (scale? n.scaled.1 n.scaled.2).map fun m => Double.ofMagnitude n.negative (some m)

/-- The 32-bit number a numeral denotes: a word is rounded once, all else by way of 64 bits. -/
def single? (n : Numeral) : Option Single :=
  match n.word? with
  | some i => some (Single.ofMagnitude (i < 0) (Format.single.round? i.natAbs 1))
  | none => n.double?.map Double.toSingle

end Numeral

/-- Which powers of ten are written positionally: those of a leading digit from `least` up to, but
not including, `bound`. -/
structure Layout where
  least : Int
  bound : Int
deriving DecidableEq, Repr

namespace Layout

/-- The decimal digits of a number, first digit first. -/
def digitsOf (n : Nat) : List Nat := (Nat.toDigits 10 n).map fun c => c.toNat - '0'.toNat

/-- The numeral of a decimal: with a point if it is positional, else with an exponent. -/
def numeral (l : Layout) (negative : Bool) (d : Decimal) : Numeral :=
  let count := digitCount d.digits
  let place : Int := d.exponent + count - 1
  if l.least ≤ place ∧ place < l.bound then
    if 0 ≤ d.exponent then ⟨negative, d.digits * Nat.pow 10 d.exponent.toNat, [0], none⟩
    else
      let after := (-d.exponent).toNat
      let fraction := digitsOf (d.digits % Nat.pow 10 after)
      ⟨negative, d.digits / Nat.pow 10 after,
        List.replicate (after - fraction.length) 0 ++ fraction, none⟩
  else
    let unit := Nat.pow 10 (count - 1)
    let fraction := if count = 1 then [] else
      let tail := digitsOf (d.digits % unit)
      List.replicate (count - 1 - tail.length) 0 ++ tail
    ⟨negative, d.digits / unit, fraction, some place⟩

end Layout

/-- The numeral of a finite 64-bit number. -/
def Double.numeral? (l : Layout) (x : Double) : Option Numeral :=
  x.magnitude?.map fun m => l.numeral x.negative (Format.double.shortest m)

/-- The numeral of a finite 32-bit number. -/
def Single.numeral? (l : Layout) (x : Single) : Option Numeral :=
  x.magnitude?.map fun m => l.numeral x.negative (Format.single.shortest m)

end Classmith.Number
