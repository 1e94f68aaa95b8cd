import Wgsl.Number.Double

/-! # Single precision

`Single` is a single-precision number given by its bits, so that equality is bitwise and storing a
number loses nothing. The four operations and the square root are the rounding operations of
`Float32`; conversions, remainders, integral parts and the fused product-sum are exact integer
arithmetic followed by one rounding.
-/

namespace Wgsl.Number
set_option autoImplicit false

/-- A single-precision number, as its thirty-two bits. -/
structure Single where
  bits : UInt32
  deriving DecidableEq, Repr

namespace Single

instance : Inhabited Single := ⟨⟨0⟩⟩

/-- The hardware number. -/
@[inline] def toFloat32 (x : Single) : Float32 := Float32.ofBits x.bits

/-- The bits of a hardware number. -/
@[inline] def ofFloat32 (x : Float32) : Single := ⟨x.toBits⟩

/-- The number held. -/
def datum (x : Single) : Datum := .ofBits .single x.bits.toNat

/-- The single nearest to a number. -/
def ofDatum (d : Datum) : Single := ⟨(d.toBits .single).toUInt32⟩

/-- The single nearest to an integer. -/
def ofInt (n : Int) : Single := ofDatum (.finite (decide (n < 0)) n.natAbs 0)

/-- The single nearest to a double. -/
def ofDouble (x : Float) : Single := ofDatum (Double.datum x)

/-- The double with the same value. -/
def toDouble (x : Single) : Float := Double.ofDatum x.datum

def zero : Single := ⟨0⟩
def negZero : Single := ⟨0x80000000⟩
def one : Single := ⟨0x3f800000⟩
def nan : Single := ⟨0x7fc00000⟩
def infinity : Single := ⟨0x7f800000⟩

/-- Lifts a hardware function of one argument. -/
@[inline] def lift₁ (f : Float32 → Float32) (x : Single) : Single := ofFloat32 (f x.toFloat32)

/-- Lifts a hardware function of two arguments. -/
@[inline] def lift₂ (f : Float32 → Float32 → Float32) (x y : Single) : Single :=
  ofFloat32 (f x.toFloat32 y.toFloat32)

instance : Add Single := ⟨lift₂ (· + ·)⟩
instance : Sub Single := ⟨lift₂ (· - ·)⟩
instance : Mul Single := ⟨lift₂ (· * ·)⟩
instance : Div Single := ⟨lift₂ (· / ·)⟩

/-- The sign bit turned over. -/
def neg (x : Single) : Single := ⟨x.bits ^^^ 0x80000000⟩

instance : Neg Single := ⟨neg⟩

/-- The sign bit cleared. -/
def abs (x : Single) : Single := ⟨x.bits &&& 0x7fffffff⟩

/-- Whether the sign bit is set. -/
def isNegative (x : Single) : Bool := x.bits &&& 0x80000000 != 0

def isNaN (x : Single) : Bool := 0x7f800000 < (x.bits &&& 0x7fffffff)

def isFinite (x : Single) : Bool := (x.bits &&& 0x7fffffff) < 0x7f800000

/-- Numeric equality: a NaN equals nothing and the two zeros are equal. -/
@[inline] def eq (x y : Single) : Bool := x.toFloat32 == y.toFloat32

/-- Numeric order; false whenever a NaN takes part. -/
@[inline] def lt (x y : Single) : Bool := x.toFloat32 < y.toFloat32

/-- Numeric order; false whenever a NaN takes part. -/
@[inline] def le (x y : Single) : Bool := x.toFloat32 ≤ y.toFloat32

/-- The smaller of two numbers, of two equal ones the second; a NaN gives way to the other. -/
def min (x y : Single) : Single :=
  if x.isNaN then y else if y.isNaN then x else if x.lt y then x else y

/-- The larger of two numbers, of two equal ones the second; a NaN gives way to the other. -/
def max (x y : Single) : Single :=
  if x.isNaN then y else if y.isNaN then x else if y.lt x then x else y

/-- A number held inside `[lo, hi]`; a NaN stays. -/
def clamp (x lo hi : Single) : Single :=
  let y := if x.lt lo then lo else x
  if hi.lt y then hi else y

/-- The magnitude of one number with the sign of another. -/
def withSignOf (x sign : Single) : Single := if sign.isNegative then -x.abs else x.abs

/-- The remainder of division toward zero. -/
def remainder (x y : Single) : Single := ofDatum (x.datum.remainder y.datum)

/-- `x * y + z` with a single rounding. -/
def fusedMulAdd (x y z : Single) : Single := ofDatum ((x.datum.mul y.datum).add z.datum)

/-- The integral number that the direction selects. -/
def toIntegral (d : Datum.Direction) (x : Single) : Single :=
  if x.isNaN then x else ofDatum (x.datum.toIntegral d)

/-- The integer part held inside `[lo, hi]`; NaN counts as zero. -/
def toIntClamped (lo hi : Int) (x : Single) : Int := x.datum.toIntClamped lo hi

/-- `2 ^ n`; a negative power is the reciprocal of the positive one. -/
def powerOfTwo (n : Int) : Single :=
  let positive := if 128 ≤ n.natAbs then infinity else ofDatum (.finite false 1 n.natAbs)
  if n < 0 then one / positive else positive

/-- Dump text: fewest digits, always with a point or an exponent. -/
def spell (x : Single) : String := x.datum.spell .single

end Single

end Wgsl.Number
