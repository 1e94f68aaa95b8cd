import Wgsl.Value.Convert

/-! # Bit functions

Functions of the built-in library on the bits of integers. They keep the kind of their argument.
-/

namespace Wgsl.Library
set_option autoImplicit false

/-- The bits of a word, the lowest first. -/
def bitList (n : UInt32) : List Bool := (List.range 32).map fun i => n.toNat.testBit i

/-- The number that bits spell, the lowest first. -/
def natOfBits : List Bool → Nat
  | [] => 0
  | b :: r => (if b then 1 else 0) + 2 * natOfBits r

/-- How many bits at the front of a list are clear. -/
def clearPrefix (bits : List Bool) : Nat := (bits.takeWhile fun b => !b).length

def trailingZeros (n : UInt32) : UInt32 := (clearPrefix (bitList n)).toUInt32

def leadingZeros (n : UInt32) : UInt32 := (clearPrefix (bitList n).reverse).toUInt32

def oneBits (n : UInt32) : UInt32 := ((bitList n).count true).toUInt32

def reverseBits (n : UInt32) : UInt32 := (natOfBits (bitList n).reverse).toUInt32

/-- The position of the lowest bit set, or all ones. -/
def firstTrailingBit (n : UInt32) : UInt32 := if n = 0 then 0xffffffff else trailingZeros n

/-- The error for a value that is no integer. -/
def notInteger (v : Value) : RunError := v.expected "an integer"

/-- A function of words on an integer of either sign. -/
def onWord (f : UInt32 → UInt32) : Value → Run Value
  | .i32 n => pure (.i32 (f n.toUInt32).toInt32)
  | .u32 n => pure (.u32 (f n))
  | v => throw (notInteger v)

/-- A function of words on every component. -/
def overWords (f : UInt32 → UInt32) (v : Value) : Run Value := v.mapComponents (onWord f)

/-- The position of the highest bit set, in a signed integer of the highest bit that differs from the
sign. -/
def firstLeadingBit : Value → Run Value
  | .u32 n => pure (.u32 (if n = 0 then 0xffffffff else 31 - leadingZeros n))
  | .i32 n =>
    let bits := if n < 0 then (~~~n).toUInt32 else n.toUInt32
    pure (.i32 (if bits = 0 then -1 else (31 - leadingZeros bits).toInt32))
  | v => throw (notInteger v)

/-- The word whose lowest `count` bits are set. -/
def bitMask (count : UInt32) : UInt32 := if 32 ≤ count then 0xffffffff else (1 <<< count) - 1

/-- A shift to the right by any amount: all bits are gone from the width on. -/
def shiftedRight (n amount : UInt32) : UInt32 := if 32 ≤ amount then 0 else n >>> amount

/-- A shift to the left by any amount: all bits are gone from the width on. -/
def shiftedLeft (n amount : UInt32) : UInt32 := if 32 ≤ amount then 0 else n <<< amount

/-- A field of bits cut to the width of a word: its offset and its length. -/
def field (offset count : UInt32) : UInt32 × UInt32 :=
  let offset := if 32 < offset then 32 else offset
  let room := 32 - offset
  (offset, if room < count then room else count)

/-- The lowest `count` bits, with the sign of the highest of them. -/
def signExtended (n count : UInt32) : Int32 :=
  if count = 0 then 0
  else
    let shift := 32 - count
    (n <<< shift).toInt32 >>> shift.toInt32

/-- The field of bits of an integer. -/
def extractBits (offset count : UInt32) (v : Value) : Run Value :=
  let (offset, count) := field offset count
  match v with
  | .u32 n => pure (.u32 (shiftedRight n offset &&& bitMask count))
  | .i32 n =>
    pure (.i32 (signExtended (shiftedRight n.toUInt32 offset &&& bitMask count) count))
  | v => throw (notInteger v)

/-- An integer with another field of bits. -/
def insertBits (offset count : UInt32) (v new : Value) : Run Value := do
  let (offset, count) := field offset count
  let mask := shiftedLeft (bitMask count) offset
  let kept := (← v.unsigned) &&& ~~~mask
  let bits := kept ||| (shiftedLeft (← new.unsigned) offset &&& mask)
  match v with
  | .i32 _ => return .i32 bits.toInt32
  | _ => return .u32 bits

end Wgsl.Library
