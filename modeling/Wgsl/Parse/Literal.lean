import Wgsl.Number.Double

/-! # The value of a numeral

The value and the type letter of the characters of a number token. A numeral whose value does not
fit has none.
-/

namespace Wgsl.Numeral
set_option autoImplicit false

open Number

/-- The characters without a leading minus sign, and whether there was one. -/
def splitSign : List Char → Bool × List Char
  | '-' :: r => (true, r)
  | r => (false, r)

/-- The characters behind the mark of a hexadecimal numeral. -/
def hexBody? : List Char → Option (List Char)
  | '0' :: 'x' :: r => some r
  | '0' :: 'X' :: r => some r
  | _ => none

/-- Splits off the last character if it is one of the letters. -/
def splitSuffix (letters : List Char) (cs : List Char) : List Char × Option Char :=
  match cs.getLast? with
  | some c => if letters.contains c then (cs.dropLast, some c) else (cs, none)
  | none => (cs, none)

/-- The value of the digits of an integer of sixty-four bits. They may have a sign of their own. -/
def readInt64? (base : Nat) (digits : List Char) : Option Int64 :=
  (readInteger base Int64.minValue.toInt Int64.maxValue.toInt digits).toOption.map Int64.ofInt

/-- Value and letter of an integer such as `42`, `-7i` or `0xFFu`. -/
def readInt? (lexeme : String) : Option (Int64 × Option Char) := do
  let (negative, body) := splitSign lexeme.toList
  let (digits, suffix) := splitSuffix ['i', 'u'] body
  let n ← match hexBody? digits with
    | some hex => readInt64? 16 hex
    | none => readInt64? 10 digits
  return (if negative then -n else n, suffix)

/-- Digit by digit in double arithmetic: whole digits first, then the fraction with ever smaller
weights. -/
def hexMantissa (whole fraction : List Nat) : Float :=
  let start : Float := whole.foldl (fun v (d : Nat) => v * 16.0 + Double.ofInt d) 0.0
  let add (acc : Float × Float) (d : Nat) : Float × Float :=
    (acc.1 + Double.ofInt d * acc.2, acc.2 / 16.0)
  (fraction.foldl add (start, 1.0 / 16.0)).1

/-- Value and letter of the part behind `0x`. The binary exponent is a signed integer of
thirty-two bits. -/
def readHexFloat? (hex : List Char) : Option (Float × Option Char) := do
  let isMark (c : Char) : Bool := c == 'p' || c == 'P'
  let mantissa := hex.takeWhile fun c => !isMark c
  let (exponent, suffix) ← match hex.dropWhile fun c => !isMark c with
    | [] => some ((0 : Int), none)
    | _ :: text =>
      let (digits, suffix) := splitSuffix ['f', 'h'] text
      match readInteger 10 Int32.minValue.toInt Int32.maxValue.toInt digits with
      | .ok e => some (e, suffix)
      | .error _ => none
  let whole ← (mantissa.takeWhile (· != '.')).mapM digitValue?
  let fraction ← ((mantissa.dropWhile (· != '.')).drop 1).mapM digitValue?
  return (hexMantissa whole fraction * Double.powerOfTwo exponent, suffix)

/-- Value and letter of a decimal or hexadecimal float. -/
def readFloat? (lexeme : String) : Option (Float × Option Char) := do
  let (negative, body) := splitSign lexeme.toList
  let (value, suffix) ← match hexBody? body with
    | some hex => readHexFloat? hex
    | none =>
      let (digits, suffix) := splitSuffix ['f', 'h'] body
      (readDecimal? digits).map fun x => (x, suffix)
  return (if negative then -value else value, suffix)

end Wgsl.Numeral
