import Wgsl.Number.Format

/-! # The fewest decimal digits that read back

`shortest f m q` are the digits of the shortest decimal that rounds to `m * 2 ^ q` in the format
`f`: for one digit, two digits, and so on, the two neighbours of the value on that decimal grid are
tested against the interval of reals that round to it, and the first grid with a hit wins. Of two
hits the nearer is taken, and a tie goes up.

`Scientific` is the outcome: `digits * 10 ^ exponent`. The text forms are `positional` and
`exponential`.
-/

namespace Wgsl.Number
set_option autoImplicit false

/-- A decimal number `digits * 10 ^ exponent`. -/
structure Scientific where
  digits : Nat
  exponent : Int
  deriving DecidableEq, Repr

/-- A positive rational number `num / den`, used only to compare and divide. -/
structure Ratio where
  num : Nat
  den : Nat
  deriving DecidableEq, Repr

namespace Ratio

/-- `m * 2 ^ q`. -/
def binary (m : Nat) (q : Int) : Ratio :=
  if 0 ≤ q then ⟨m * Nat.pow 2 q.toNat, 1⟩ else ⟨m, Nat.pow 2 (-q).toNat⟩

/-- `x / 10 ^ e`. -/
def downBy (x : Ratio) (e : Int) : Ratio :=
  if 0 ≤ e then ⟨x.num, x.den * Nat.pow 10 e.toNat⟩
  else ⟨x.num * Nat.pow 10 (-e).toNat, x.den⟩

/-- Whether `x < n`. -/
def ltNat (x : Ratio) (n : Nat) : Bool := x.num < n * x.den

/-- Whether `n < x`. -/
def natLt (n : Nat) (x : Ratio) : Bool := n * x.den < x.num

end Ratio

/-- The reals that round to `m * 2 ^ q`, as bounds in quarters of the last place, with the ends
included when `m` is even. Below a power of two the neighbour is only half as far away. -/
structure Interval where
  low : Ratio
  high : Ratio
  closed : Bool

/-- The interval of reals that round to `m * 2 ^ q` in the format `f`. -/
def Interval.around (f : Format) (m : Nat) (q : Int) : Interval :=
  let narrow := m = Nat.pow 2 f.fractionBits ∧ f.finest < q
  { low := .binary (4 * m - (if narrow then 1 else 2)) (q - 2)
    high := .binary (4 * m + 2) (q - 2)
    closed := m % 2 = 0 }

/-- Whether `n * 10 ^ e` lies in the interval. -/
def Interval.contains (i : Interval) (n : Nat) (e : Int) : Bool :=
  let low := i.low.downBy e
  let high := i.high.downBy e
  if i.closed then !Ratio.natLt n low && !high.ltNat n
  else low.ltNat n && Ratio.natLt n high

/-- The grid point of unit `10 ^ e` that is nearest to `value` among the two neighbours lying in
the interval; a tie goes up. -/
def Interval.pick (i : Interval) (value : Ratio) (e : Int) : Option Nat :=
  let x := value.downBy e
  let below := x.num / x.den
  let above := below + 1
  match i.contains below e, i.contains above e with
  | true, true => some (if 2 * (x.num % x.den) < x.den then below else above)
  | true, false => some below
  | false, true => some above
  | false, false => none

/-- Tries grids of unit `10 ^ e`, `10 ^ (e - 1)`, and so on, at most `tries` of them. -/
def Interval.search (i : Interval) (value : Ratio) : Nat → Int → Scientific
  | 0, e => ⟨value.num / value.den, e⟩
  | tries + 1, e =>
    match i.pick value e with
    | some n => ⟨n, e⟩
    | none => i.search value tries (e - 1)

/-- The decimal order of magnitude of a positive value: the `e` with `10 ^ e ≤ x < 10 ^ (e + 1)`. -/
def decimalOrder (m : Nat) (q : Int) : Int :=
  -- `log10 2` lies between 1233 / 4096 and 1234 / 4096, so the estimate is off by one at most
  let estimate := Int.fdiv (((m.log2 : Int) + q) * 1233) 4096
  let x := Ratio.binary m q
  let settle (e : Int) : Bool := !(x.downBy e).ltNat 1 && (x.downBy (e + 1)).ltNat 1
  match [estimate - 1, estimate, estimate + 1, estimate + 2].find? settle with
  | some e => e
  | none => estimate

/-- Drops trailing zeros of the digits. At most `tries` are dropped. -/
def Scientific.trim : Nat → Scientific → Scientific
  | 0, x => x
  | tries + 1, x =>
    if x.digits ≠ 0 ∧ x.digits % 10 = 0 then trim tries ⟨x.digits / 10, x.exponent + 1⟩ else x

/-- The shortest decimal that rounds to `m * 2 ^ q` in the format `f`. Seventeen digits always
suffice for the formats in use. -/
def shortest (f : Format) (m : Nat) (q : Int) : Scientific :=
  if m = 0 then ⟨0, 0⟩
  else
    ((Interval.around f m q).search (.binary m q) 18 (decimalOrder m q)).trim 20

namespace Scientific

/-- The digits as text. -/
def digitText (x : Scientific) : List Char := Nat.toDigits 10 x.digits

/-- The exponent of the leading digit. -/
def order (x : Scientific) : Int := x.exponent + (x.digitText.length - 1 : Nat)

/-- Positional text without exponent; a number without fraction has no point. -/
def positional (x : Scientific) : List Char :=
  let ds := x.digitText
  if 0 ≤ x.exponent then
    if x.digits = 0 then ds else ds ++ List.replicate x.exponent.toNat '0'
  else
    let places := (-x.exponent).toNat
    if places < ds.length then ds.take (ds.length - places) ++ '.' :: ds.drop (ds.length - places)
    else '0' :: '.' :: (List.replicate (places - ds.length) '0' ++ ds)

/-- One digit, the others behind a point, then `e` and the exponent. -/
def exponential (x : Scientific) : List Char :=
  let tail := match x.digitText with
    | [] => []
    | [d] => [d]
    | d :: ds => d :: '.' :: ds
  tail ++ 'e' :: (toString x.order).toList

end Scientific

end Wgsl.Number
