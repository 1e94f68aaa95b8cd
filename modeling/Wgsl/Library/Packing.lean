import Wgsl.Library.Bits
import Wgsl.Texture

/-! # Packing functions

Functions of the built-in library that put several numbers into one word and take them out again.
-/

namespace Wgsl.Library
set_option autoImplicit false

open Number (Single)

/-- Puts numbers side by side into a word, the first one lowest. -/
def joinFields (width : UInt32) (fields : List UInt32) : UInt32 :=
  fields.zipIdx.foldl (fun word (x, i) =>
    word ||| ((x &&& bitMask width) <<< (width * i.toUInt32))) 0

/-- Takes a word apart into numbers of one width, the lowest first. -/
def splitFields (width : UInt32) (word : UInt32) : List UInt32 :=
  (List.range (32 / width).toNat).map fun i => (word >>> (width * i.toUInt32)) &&& bitMask width

/-- Packs the floats of a vector. -/
def pack (width : UInt32) (f : Single → UInt32) (v : Value) : Run Value := do
  return .u32 (joinFields width ((← v.numbers).map f))

/-- Packs the integers of a vector into bytes. -/
def packIntegers (f : Value → Run UInt32) (v : Value) : Run Value := do
  return .u32 (joinFields 8 (← v.components.mapM f))

/-- Unpacks a word. -/
def unpack (width : UInt32) (f : UInt32 → Value) (v : Value) : Run Value := do
  return .vector ((splitFields width (← v.unsigned)).map f)

/-- An integer as a word. -/
def word (n : Int) : UInt32 := (n % UInt32.size).toNat.toUInt32

/-- A number of the given width with its sign. -/
def signedField (width : Nat) (n : UInt32) : Int :=
  if n.toNat < Nat.pow 2 (width - 1) then n.toNat else n.toNat - Nat.pow 2 width

/-- A signed field as a float inside `[-1, 1]`. -/
def snorm (width : Nat) (n : UInt32) : Value :=
  let greatest := Single.ofInt (Nat.pow 2 (width - 1) - 1)
  .f32 ((Single.ofInt (signedField width n) / greatest).max (-Single.one))

/-- An unsigned field as a float inside `[0, 1]`. -/
def unorm (width : Nat) (n : UInt32) : Value :=
  .f32 (Single.ofInt n.toNat / Single.ofInt (Nat.pow 2 width - 1))

/-- A signed integer held inside a byte. -/
def clampedSigned (v : Value) : Run UInt32 := do
  let n := (← v.signed).toInt
  return word (if n < -128 then -128 else if 127 < n then 127 else n)

/-- An unsigned integer held inside a byte. -/
def clampedUnsigned (v : Value) : Run UInt32 := do
  let n ← v.unsigned
  return if 255 < n then 255 else n

/-- The packing or unpacking function of that name. -/
def packing? : String → Option (Value → Run Value)
  | "pack4x8snorm" => some (pack 8 fun x => word (Channel.steps (-Single.one) 127 x))
  | "pack4x8unorm" => some (pack 8 fun x => word (Channel.steps .zero 255 x))
  | "pack2x16snorm" => some (pack 16 fun x => word (Channel.steps (-Single.one) 32767 x))
  | "pack2x16unorm" => some (pack 16 fun x => word (Channel.steps .zero 65535 x))
  | "pack2x16float" => some (pack 16 fun x => (Number.Half.ofSingle x).toUInt32)
  | "pack4xI8" | "pack4xU8" => some (packIntegers Value.unsigned)
  | "pack4xI8Clamp" => some (packIntegers clampedSigned)
  | "pack4xU8Clamp" => some (packIntegers clampedUnsigned)
  | "unpack4x8snorm" => some (unpack 8 (snorm 8))
  | "unpack4x8unorm" => some (unpack 8 (unorm 8))
  | "unpack4xI8" => some (unpack 8 fun n => .i32 (.ofInt (signedField 8 n)))
  | "unpack4xU8" => some (unpack 8 .u32)
  | "unpack2x16snorm" => some (unpack 16 (snorm 16))
  | "unpack2x16unorm" => some (unpack 16 (unorm 16))
  | "unpack2x16float" => some (unpack 16 fun n => .f32 (Number.Half.toSingle n.toUInt16))
  | _ => none

/-- The sum of the products of the bytes of two words, unsigned. -/
def dotUnsignedBytes (a b : Value) : Run Value := do
  let xs := splitFields 8 (← a.unsigned)
  let ys := splitFields 8 (← b.unsigned)
  return .u32 ((List.zipWith (· * ·) xs ys).foldl (· + ·) 0)

/-- The sum of the products of the bytes of two words, with their signs. -/
def dotSignedBytes (a b : Value) : Run Value := do
  let xs := (splitFields 8 (← a.unsigned)).map (signedField 8)
  let ys := (splitFields 8 (← b.unsigned)).map (signedField 8)
  return .i32 (.ofInt ((List.zipWith (· * ·) xs ys).foldl (· + ·) 0))

end Wgsl.Library
