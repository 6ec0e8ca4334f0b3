/-!
# Binary floating-point numbers

Numbers of the two interchange formats as bit patterns, and rounding of an exact quotient to the
nearest number of a format, all in natural numbers.
-/
namespace Classmith.Number

/-- A binary format: the digits of a significand, the leading one included, and the bits of the
exponent field. -/
structure Format where
  precision : Nat
  exponentBits : Nat

namespace Format

def single : Format := ⟨24, 8⟩

def double : Format := ⟨53, 11⟩

/-- The exponent of the last place of the smallest numbers. -/
def minExponent (f : Format) : Int := 3 - Nat.pow 2 (f.exponentBits - 1) - f.precision

/-- The exponent of the last place of the largest numbers. -/
def maxExponent (f : Format) : Int := Nat.pow 2 (f.exponentBits - 1) - f.precision

end Format

/-- The number `mantissa * 2 ^ exponent`. -/
structure Magnitude where
  mantissa : Nat
  exponent : Int
deriving DecidableEq, Repr, Inhabited

namespace Magnitude

/-- Numerator and denominator. -/
def toRatio (m : Magnitude) : Nat × Nat :=
  if 0 ≤ m.exponent then (m.mantissa * Nat.pow 2 m.exponent.toNat, 1)
  else (m.mantissa, Nat.pow 2 (-m.exponent).toNat)

end Magnitude

/-- The quotient rounded to the nearest natural number; a half goes to the even neighbour. -/
def roundDiv (num den : Nat) : Nat :=
  let q := num / den
  let r := num % den
  if 2 * r < den then q
  else if den < 2 * r then q + 1
  else if q % 2 = 0 then q else q + 1

/-- The number of a format nearest to `num / den`; none if that lies past the largest. -/
def Format.round? (f : Format) (num den : Nat) : Option Magnitude :=
  if num = 0 then some ⟨0, f.minExponent⟩
  else
    let scale (q : Int) : Nat × Nat :=
      if 0 ≤ q then (num, den * Nat.pow 2 q.toNat) else (num * Nat.pow 2 (-q).toNat, den)
    let low := max f.minExponent ((num.log2 : Int) - den.log2 - f.precision)
    let (n₀, d₀) := scale low
    let q := if n₀ / d₀ < Nat.pow 2 f.precision then low else low + 1
    let (n, d) := scale q
    let m := roundDiv n d
    let result : Magnitude :=
      if m = Nat.pow 2 f.precision then ⟨Nat.pow 2 (f.precision - 1), q + 1⟩ else ⟨m, q⟩
    if f.maxExponent < result.exponent then none else some result

/-- The bit pattern of a magnitude, without its sign. -/
def Format.encode (f : Format) (m : Magnitude) : Nat :=
  let hidden := Nat.pow 2 (f.precision - 1)
  if m.mantissa < hidden then m.mantissa
  else (m.exponent - f.minExponent + 1).toNat * hidden + (m.mantissa - hidden)

/-- The bit pattern of infinity, without its sign. -/
def Format.infinity (f : Format) : Nat :=
  (Nat.pow 2 f.exponentBits - 1) * Nat.pow 2 (f.precision - 1)

/-- The sign bit. -/
def Format.signBit (f : Format) : Nat := Nat.pow 2 (f.precision - 1 + f.exponentBits)

/-- The magnitude of a bit pattern; none for infinities and what lies past them. -/
def Format.decode? (f : Format) (bits : Nat) : Option Magnitude :=
  let hidden := Nat.pow 2 (f.precision - 1)
  let field := bits / hidden % Nat.pow 2 f.exponentBits
  let fraction := bits % hidden
  if field = Nat.pow 2 f.exponentBits - 1 then none
  else if field = 0 then some ⟨fraction, f.minExponent⟩
  else some ⟨hidden + fraction, (field : Int) - 1 + f.minExponent⟩

/-- The pattern of a signed number, infinity standing for one out of range. -/
def Format.pattern (f : Format) (negative : Bool) (m : Option Magnitude) : Nat :=
  (if negative then f.signBit else 0) + (m.map f.encode).getD f.infinity

/-- A number of 32 bits. -/
structure Single where
  bits : UInt32
deriving DecidableEq, Repr, Inhabited

/-- A number of 64 bits. -/
structure Double where
  bits : UInt64
deriving DecidableEq, Repr, Inhabited

namespace Single

def negative (x : Single) : Bool := Format.single.signBit ≤ x.bits.toNat

def magnitude? (x : Single) : Option Magnitude := Format.single.decode? x.bits.toNat

def isFinite (x : Single) : Bool := x.magnitude?.isSome

def ofMagnitude (negative : Bool) (m : Option Magnitude) : Single :=
  ⟨(Format.single.pattern negative m).toUInt32⟩

def ofNat (n : Nat) : Single := ofMagnitude false (Format.single.round? n 1)

end Single

namespace Double

def negative (x : Double) : Bool := Format.double.signBit ≤ x.bits.toNat

def magnitude? (x : Double) : Option Magnitude := Format.double.decode? x.bits.toNat

def isFinite (x : Double) : Bool := x.magnitude?.isSome

def ofMagnitude (negative : Bool) (m : Option Magnitude) : Double :=
  ⟨(Format.double.pattern negative m).toUInt64⟩

def ofNat (n : Nat) : Double := ofMagnitude false (Format.double.round? n 1)

/-- The nearest number of 32 bits, infinity if there is none in range. -/
def toSingle (x : Double) : Single :=
  Single.ofMagnitude x.negative <| x.magnitude?.bind fun m =>
    Format.single.round? m.toRatio.1 m.toRatio.2

end Double

end Classmith.Number
