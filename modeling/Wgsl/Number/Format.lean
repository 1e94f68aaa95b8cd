/-! # Binary floating formats

A binary format is given by its number of fraction bits and exponent bits. A finite magnitude is
`m * 2 ^ q` with natural `m` and integer `q`; everything here is exact arithmetic on such pairs.

* `Format.decode` reads the magnitude bits of a finite number as a pair `(m, q)`.
* `Format.round` gives the magnitude bits nearest to `m * 2 ^ q`, a tie going to the even neighbour.
* `Format.roundRatio` does the same for a quotient times a power of two.
* `Datum` is a number of any format with its sign, infinities and a single NaN apart.
-/

namespace Wgsl.Number
set_option autoImplicit false

/-- The power `2 ^ n`. -/
@[inline] def twoPow (n : Nat) : Nat := 1 <<< n

theorem twoPow_eq (n : Nat) : twoPow n = Nat.pow 2 n := Nat.one_shiftLeft n

/-- A binary interchange format: a sign bit, `exponentBits` of biased exponent and `fractionBits`
of significand behind the hidden bit. -/
structure Format where
  fractionBits : Nat
  exponentBits : Nat
  deriving DecidableEq, Repr

namespace Format

/-- Sixteen bits: one sign, five exponent, ten fraction. -/
def half : Format := ⟨10, 5⟩

/-- Thirty-two bits: one sign, eight exponent, twenty-three fraction. -/
def single : Format := ⟨23, 8⟩

/-- Sixty-four bits: one sign, eleven exponent, fifty-two fraction. -/
def double : Format := ⟨52, 11⟩

/-- The magnitude bits of infinity: all exponent bits set, no fraction bit. -/
def infinity (f : Format) : Nat := (twoPow f.exponentBits - 1) * twoPow f.fractionBits

/-- The weight of the sign bit. -/
def signWeight (f : Format) : Nat := twoPow (f.exponentBits + f.fractionBits)

/-- The exponent of the last place of subnormal numbers, the finest one of the format. -/
def finest (f : Format) : Int := 2 - twoPow (f.exponentBits - 1) - f.fractionBits

/-- The pair `(m, q)` with value `m * 2 ^ q` of finite magnitude bits. -/
def decode (f : Format) (bits : Nat) : Nat × Int :=
  let e := bits / twoPow f.fractionBits
  let fraction := bits % twoPow f.fractionBits
  if e = 0 then (fraction, f.finest)
  else (twoPow f.fractionBits + fraction, f.finest + (e - 1 : Nat))

/-- The quotient `m / 2 ^ s` rounded to the nearest integer, a tie going to the even one. -/
def shiftRound (m s : Nat) : Nat :=
  let unit := twoPow s
  let q := m / unit
  let r := m % unit
  if 2 * r < unit then q else if unit < 2 * r then q + 1 else q + q % 2

/-- The exponent of the last place kept when `m * 2 ^ q` is written in the format. -/
def place (f : Format) (m : Nat) (q : Int) : Int :=
  max (m.log2 + q - f.fractionBits) f.finest

/-- The magnitude bits of the number nearest to `m * 2 ^ q`, a tie going to the even neighbour and
all that is too large to infinity. A carry out of the significand runs into the exponent field, so
one sum serves subnormal and normal numbers alike. -/
def round (f : Format) (m : Nat) (q : Int) : Nat :=
  if m = 0 then 0 else
  let u := f.place m q
  let significand := if u ≤ q then m * twoPow (q - u).toNat else shiftRound m (u - q).toNat
  min f.infinity ((u - f.finest).toNat * twoPow f.fractionBits + significand)

/-- The magnitude bits nearest to `num / den * 2 ^ q`. The quotient is taken to more places than
the format has, and a remainder sets one further place, so no tie is made or lost. -/
def roundRatio (f : Format) (num den : Nat) (q : Int) : Nat :=
  let extra := den.log2 + f.fractionBits + 3 - num.log2
  let scaled := num * twoPow extra
  let rest := if scaled % den = 0 then 0 else 1
  f.round (2 * (scaled / den) + rest) (q - extra - 1)

end Format

/-- A floating number apart from its width. -/
inductive Datum where
  | nan
  | infinite (negative : Bool)
  | finite (negative : Bool) (m : Nat) (q : Int)
  deriving DecidableEq, Repr

namespace Datum

/-- The number written by `bits` in the format `f`. -/
def ofBits (f : Format) (bits : Nat) : Datum :=
  let negative := f.signWeight ≤ bits
  let magnitude := bits % f.signWeight
  if magnitude < f.infinity then
    let (m, q) := f.decode magnitude
    .finite negative m q
  else if magnitude = f.infinity then .infinite negative
  else .nan

/-- The bits of the nearest number of the format `f`; NaN has the leading fraction bit alone. -/
def toBits (f : Format) : Datum → Nat
  | .nan => f.infinity + twoPow (f.fractionBits - 1)
  | .infinite negative => (if negative then f.signWeight else 0) + f.infinity
  | .finite negative m q => (if negative then f.signWeight else 0) + f.round m q

/-- The integer part, cut toward zero, of `± m * 2 ^ q`. -/
def cut (negative : Bool) (m : Nat) (q : Int) : Int :=
  let magnitude : Nat := if 0 ≤ q then m * twoPow q.toNat else m / twoPow (-q).toNat
  if negative then -magnitude else magnitude

/-- The integer part cut toward zero and held inside `[lo, hi]`; NaN counts as zero. A magnitude
of `2 ^ 64` or more lies outside every range of interest and is not expanded. -/
def toIntClamped (lo hi : Int) : Datum → Int
  | .nan => 0
  | .infinite negative => if negative then lo else hi
  | .finite negative m q =>
    if m ≠ 0 ∧ 64 ≤ m.log2 + q then (if negative then lo else hi)
    else max lo (min hi (cut negative m q))

/-- The significand of `m * 2 ^ q` once its last place is brought down to `2 ^ place`. -/
def aligned (m : Nat) (q place : Int) : Nat := m * twoPow (q - place).toNat

/-- The remainder of division toward zero: it has the sign of the dividend and is exact. -/
def remainder : Datum → Datum → Datum
  | .finite negative m q, .finite _ n r =>
    if n = 0 then .nan
    else
      let p := min q r
      .finite negative (aligned m q p % aligned n r p) p
  | .finite negative m q, .infinite _ => .finite negative m q
  | _, _ => .nan

/-- The exact product; zero times infinity is NaN. -/
def mul : Datum → Datum → Datum
  | .finite a m q, .finite b n r => .finite (a != b) (m * n) (q + r)
  | .infinite a, .finite b n _ => if n = 0 then .nan else .infinite (a != b)
  | .finite a m _, .infinite b => if m = 0 then .nan else .infinite (a != b)
  | .infinite a, .infinite b => .infinite (a != b)
  | _, _ => .nan

/-- The exact sum. A sum that cancels to zero is positive unless both terms are negative. -/
def add : Datum → Datum → Datum
  | .finite a m q, .finite b n r =>
    let p := min q r
    let signed (negative : Bool) (k : Nat) : Int := if negative then -k else k
    let total := signed a (aligned m q p) + signed b (aligned n r p)
    if total = 0 then .finite (a && b) 0 p
    else .finite (decide (total < 0)) total.natAbs p
  | .infinite a, .infinite b => if a = b then .infinite a else .nan
  | .infinite a, .finite .. => .infinite a
  | .finite .., .infinite b => .infinite b
  | _, _ => .nan

/-- How a fractional number goes to an integral one. -/
inductive Direction where
  | towardZero
  | down
  | up
  /-- A half goes to the even neighbour. -/
  | nearestEven
  /-- A half goes away from zero. -/
  | nearestAway
  deriving DecidableEq, Repr

/-- The integral number that `d` selects; numbers without a fraction stay as they are, and the
sign is kept when the result is zero. -/
def toIntegral (d : Direction) : Datum → Datum
  | .finite negative m q =>
    if 0 ≤ q then .finite negative m q
    else
      let s := (-q).toNat
      let unit := twoPow s
      let whole := m / unit
      let bumped := if m % unit = 0 then whole else whole + 1
      let n := match d with
        | .towardZero => whole
        | .down => if negative then bumped else whole
        | .up => if negative then whole else bumped
        | .nearestEven => Format.shiftRound m s
        | .nearestAway => (2 * m + unit) / (2 * unit)
      .finite negative n 0
  | x => x

/-- Whether a finite number has no fractional part. -/
def isIntegral : Datum → Bool
  | .finite _ m q => decide (0 ≤ q) || m % twoPow (-q).toNat == 0
  | _ => false

end Datum

end Wgsl.Number
