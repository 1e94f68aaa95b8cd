import Wgsl.Number.Shortest

/-! # Written numbers

How floating numbers are written in dumps and in program text, and how decimal and hexadecimal
numerals are read.

* `spell` keeps a point or an exponent in sight: positional from `10 ^ (-4)` to below `10 ^ 16`.
* `spellLiteral` writes a number as a literal: never an exponent, `.0` behind a whole number.
* `readDecimal` rounds a decimal numeral correctly to the nearest double.
-/

namespace Wgsl.Number
set_option autoImplicit false

/-- Which orders of magnitude are written without an exponent. -/
structure PositionalRange where
  least : Int
  below : Int

/-- Dumps are positional from `10 ^ (-4)` to below `10 ^ 16`. -/
def dumpRange : PositionalRange := ⟨-4, 16⟩

/-- Sign and body of a spelled number. -/
def signed (negative : Bool) (body : List Char) : String :=
  String.ofList (if negative then '-' :: body else body)

/-- A body that shows no point gets `.0`. -/
def withPoint (body : List Char) : List Char :=
  if body.contains '.' then body else body ++ ['.', '0']

/-- The fewest digits that read back in the format `f`, always with a point or an exponent. -/
def Datum.spell (f : Format) : Datum → String
  | .nan => "NaN"
  | .infinite negative => signed negative ['i', 'n', 'f']
  | .finite negative m q =>
    let x := shortest f m q
    if m = 0 ∨ (dumpRange.least ≤ x.order ∧ x.order < dumpRange.below) then
      signed negative (withPoint x.positional)
    else signed negative x.exponential

/-- All digits of a whole number with `.0`, and the fewest positional digits otherwise. -/
def Datum.spellLiteral (f : Format) : Datum → String
  | .nan => "NaN"
  | .infinite negative => signed negative ['i', 'n', 'f']
  | .finite negative m q =>
    if (Datum.finite negative m q).isIntegral then
      signed negative (withPoint (Nat.toDigits 10 (Datum.cut false m q).natAbs))
    else signed negative (shortest f m q).positional

/-! ## Reading -/

/-- The value of a digit in bases up to sixteen. -/
def digitValue? (c : Char) : Option Nat :=
  if c.isDigit then some (c.toNat - '0'.toNat)
  else if 'a' ≤ c ∧ c ≤ 'f' then some (c.toNat - 'a'.toNat + 10)
  else if 'A' ≤ c ∧ c ≤ 'F' then some (c.toNat - 'A'.toNat + 10)
  else none

/-- The value of a nonempty run of digits of the given base, or `none` at any other character. -/
def readDigits? (base : Nat) (cs : List Char) : Option Nat :=
  if cs.isEmpty then none
  else cs.foldl (fun acc c => do
    let n ← acc
    let d ← digitValue? c
    if d < base then some (n * base + d) else none) (some 0)

/-- Why a run of characters is no integer of a bounded type. -/
inductive IntegerFault where
  | empty
  | invalidDigit
  | tooLarge
  | tooSmall
  deriving DecidableEq, Repr

/-- An integer in `[lo, hi]` with one digit more behind it. -/
def appendDigit (base : Nat) (lo hi : Int) (negative : Bool) (n : Int) (c : Char) :
    Except IntegerFault Int :=
  match digitValue? c with
  | some d =>
    if d < base then
      let next := if negative then n * base - d else n * base + d
      if hi < next then .error .tooLarge
      else if next < lo then .error .tooSmall
      else .ok next
    else .error .invalidDigit
  | none => .error .invalidDigit

/-- An integer in `[lo, hi]` with an optional sign. A `-` is a sign only where negative numbers are
allowed, and a sign alone is no digit. The first offending character decides, so a number that
leaves the range before a bad character is out of range. -/
def readInteger (base : Nat) (lo hi : Int) (cs : List Char) : Except IntegerFault Int :=
  let body (negative : Bool) (ds : List Char) : Except IntegerFault Int :=
    ds.foldlM (appendDigit base lo hi negative) 0
  match cs with
  | [] => .error .empty
  | ['+'] => .error .invalidDigit
  | ['-'] => .error .invalidDigit
  | '+' :: ds => body false ds
  | '-' :: ds => if lo < 0 then body true ds else body false ('-' :: ds)
  | ds => body false ds

/-- `digits * 10 ^ exponent` rounded to the nearest double, as magnitude bits. Exponents far
outside the range are decided without expanding the power. -/
def decimalBits (digits : Nat) (exponent : Int) : Nat :=
  if digits = 0 then 0
  else
    let order : Int := (Nat.toDigits 10 digits).length + exponent
    if 310 < order then Format.double.infinity
    else if order < -330 then 0
    else if 0 ≤ exponent then Format.double.round (digits * Nat.pow 10 exponent.toNat) 0
    else Format.double.roundRatio digits (Nat.pow 10 (-exponent).toNat) 0

/-- Digits, an optional point with further digits, and an optional exponent: the double nearest to
the numeral. At least one digit stands before the exponent. -/
def readUnsignedDecimal? (cs : List Char) : Option Float :=
  let whole := cs.takeWhile Char.isDigit
  let afterWhole := cs.dropWhile Char.isDigit
  let (fraction, afterFraction) := match afterWhole with
    | '.' :: r => (r.takeWhile Char.isDigit, r.dropWhile Char.isDigit)
    | r => ([], r)
  let exponent? : Option Int := match afterFraction with
    | [] => some 0
    | e :: r =>
      if e = 'e' ∨ e = 'E' then
        match r with
        | '+' :: ds => (readDigits? 10 ds).map Int.ofNat
        | '-' :: ds => (readDigits? 10 ds).map (fun n => -(n : Int))
        | ds => (readDigits? 10 ds).map Int.ofNat
      else none
  match readDigits? 10 (whole ++ fraction), exponent? with
  | some n, some e => some (Float.ofBits (decimalBits n (e - fraction.length)).toUInt64)
  | _, _ => none

/-- A decimal numeral with an optional sign, or one of the words for infinity and NaN in any case. -/
def readDecimal? (cs : List Char) : Option Float :=
  let (negative, body) := match cs with
    | '-' :: r => (true, r)
    | '+' :: r => (false, r)
    | r => (false, r)
  let word := String.ofList (body.map Char.toLower)
  let magnitude? : Option Float :=
    if word = "inf" ∨ word = "infinity" then some (Float.ofBits Format.double.infinity.toUInt64)
    else if word = "nan" then some (Float.ofBits (Datum.nan.toBits .double).toUInt64)
    else readUnsignedDecimal? body
  magnitude?.map fun x => if negative then -x else x

end Wgsl.Number
