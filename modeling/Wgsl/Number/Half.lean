import Wgsl.Number.Single

/-! # Half precision

Half-precision numbers are held as singles and stored as sixteen bits. Narrowing rounds to nearest
even; widening is exact. Both work on the fields of the bits: the sign, the exponent with its bias and
the fraction.
-/

namespace Wgsl.Number.Half
set_option autoImplicit false

/-- What is added to the bits that are kept: one if the rest is more than half of their last place, or
half of it while they are odd. -/
def carry (kept rest halfway : UInt32) : UInt32 :=
  if halfway < rest || (rest == halfway && kept &&& 1 == 1) then 1 else 0

/-- The half nearest to a single, a tie going to the even neighbour. A NaN keeps its sign and has
the leading fraction bit alone. -/
def ofSingle (x : Single) : UInt16 :=
  let sign := ((x.bits >>> 16) &&& 0x8000).toUInt16
  let exponent : Int := ((x.bits >>> 23) &&& 0xff).toNat
  let fraction := x.bits &&& 0x7fffff
  if exponent = 0xff then sign ||| 0x7c00 ||| (if fraction ≠ 0 then 0x200 else 0)
  else
    let halfExponent := exponent - 127 + 15
    if 0x1f ≤ halfExponent then sign ||| 0x7c00
    else if halfExponent ≤ 0 then
      if halfExponent < -10 then sign
      else
        -- subnormal: the hidden bit is shifted out of its place as well
        let significand := fraction ||| 0x800000
        let shift := (14 - halfExponent).toNat.toUInt32
        let kept := significand >>> shift
        let rest := significand &&& ((1 <<< shift) - 1)
        sign ||| (kept + carry kept rest (1 <<< (shift - 1))).toUInt16
    else
      let kept := (halfExponent.toNat.toUInt32 <<< 10) ||| (fraction >>> 13)
      sign ||| (kept + carry kept (fraction &&& 0x1fff) 0x1000).toUInt16

/-- The zeros in front of the first bit of a word that has one. -/
def leadingZeros (n : UInt32) : UInt32 := 31 - n.log2

/-- The single with the same value. A NaN keeps its sign and fraction, made quiet. -/
def toSingle (h : UInt16) : Single :=
  let sign := (h >>> 15).toUInt32 <<< 31
  let exponent := ((h >>> 10) &&& 0x1f).toUInt32
  let fraction := (h &&& 0x3ff).toUInt32
  if exponent = 0 then
    if fraction = 0 then ⟨sign⟩
    else
      -- subnormal: the first bit of the fraction becomes the hidden one
      let shift := leadingZeros fraction - 21
      let rest := (fraction <<< shift) &&& 0x3ff
      let exponent := 127 - 15 - shift + 1
      ⟨sign ||| (exponent <<< 23) ||| (rest <<< 13)⟩
  else
    let wide := fraction <<< 13
    if exponent = 0x1f then
      if fraction = 0 then ⟨sign ||| 0x7f800000⟩ else ⟨sign ||| 0x7fc00000 ||| wide⟩
    else ⟨sign ||| ((exponent + 127 - 15) <<< 23) ||| wide⟩

end Wgsl.Number.Half
