import Wgsl.Number.Spelling

/-! # Double precision

Exact operations on doubles that are not hardware instructions: remainder, range-limited conversion
to integers, powers of two, the smaller and the larger of two numbers, and the two spellings.
-/

namespace Wgsl.Number.Double
set_option autoImplicit false

/-- The number a double holds. -/
def datum (x : Float) : Datum := .ofBits .double x.toBits.toNat

/-- The double nearest to a number. -/
def ofDatum (d : Datum) : Float := Float.ofBits (d.toBits .double).toUInt64

/-- The double nearest to an integer. -/
def ofInt (n : Int) : Float := ofDatum (.finite (decide (n < 0)) n.natAbs 0)

/-- The integer part held inside `[lo, hi]`; NaN counts as zero. -/
def toIntClamped (lo hi : Int) (x : Float) : Int := (datum x).toIntClamped lo hi

/-- The remainder of division toward zero. -/
def remainder (x y : Float) : Float := ofDatum ((datum x).remainder (datum y))

/-- `2 ^ n`. A negative power is the reciprocal of the positive one, so it is zero as soon as the
positive power overflows. -/
def powerOfTwo (n : Int) : Float :=
  let positive := if 1024 ≤ n.natAbs then Float.ofBits Format.double.infinity.toUInt64
    else ofDatum (.finite false 1 n.natAbs)
  if n < 0 then 1.0 / positive else positive

/-- The smaller of two numbers, of two equal ones the second; a NaN gives way to the other. -/
def min (x y : Float) : Float :=
  if x.isNaN then y else if y.isNaN then x else if x < y then x else y

/-- The larger of two numbers, of two equal ones the second; a NaN gives way to the other. -/
def max (x y : Float) : Float :=
  if x.isNaN then y else if y.isNaN then x else if y < x then x else y

/-- The logarithm of `1 + x`, also for an `x` that is lost in the sum: there the quotient of the
logarithm and what is left of `x` stays exact. -/
def logOnePlus (x : Float) : Float :=
  let u := 1 + x
  if u == 1 || x.isInf then x else u.log * (x / (u - 1))

/-- Dump text: fewest digits, always with a point or an exponent. -/
def spell (x : Float) : String := (datum x).spell .double

/-- Literal text: never an exponent. -/
def spellLiteral (x : Float) : String := (datum x).spellLiteral .double

end Wgsl.Number.Double
