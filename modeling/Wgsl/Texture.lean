import Wgsl.Bytes
import Wgsl.Change
import Wgsl.Value.Convert

/-! # Textures

A texture is a run of texels, row after row and layer after layer, with one level of detail. A texel
is loaded as four components: channels that the format does not have read as `0, 0, 1` for green,
blue and alpha.
-/

namespace Wgsl
set_option autoImplicit false

open Number (Single)

/-- Three sizes, one for each axis. -/
structure Extent where
  x : Nat
  y : Nat
  z : Nat
  deriving DecidableEq, Repr, Inhabited

namespace Extent

def toList (e : Extent) : List Nat := [e.x, e.y, e.z]

/-- The product of the sizes. -/
def volume (e : Extent) : Nat := e.x * e.y * e.z

end Extent

/-! ## Formats -/

inductive TexelFormat where
  | rgba8unorm
  | rgba8snorm
  | rgba8uint
  | rgba8sint
  | bgra8unorm
  | r8unorm
  | r32float
  | r32uint
  | r32sint
  | rg32float
  | rg32uint
  | rg32sint
  | rgba16float
  | rgba32float
  | rgba32uint
  | rgba32sint
  deriving DecidableEq, Repr, Inhabited

/-- How one channel of a texel is written. -/
inductive Channel where
  | unorm8
  | snorm8
  | uint8
  | sint8
  | float16
  | float32
  | uint32
  | sint32
  deriving DecidableEq, Repr, Inhabited

namespace Channel

/-- The number of bytes of a channel. -/
def size : Channel → Nat
  | unorm8 | snorm8 | uint8 | sint8 => 1
  | float16 => 2
  | float32 | uint32 | sint32 => 4

/-- A number of a channel's kind: zero or one. -/
def unit (one : Bool) : Channel → Value
  | uint8 | uint32 => .u32 (if one then 1 else 0)
  | sint8 | sint32 => .i32 (if one then 1 else 0)
  | _ => .f32 (if one then .one else .zero)

/-- A byte as a signed number. -/
def signedByte (n : Nat) : Int := if n < 128 then n else n - 256

/-- The component that the bytes of a channel spell. -/
def decode (c : Channel) (bytes : List UInt8) : Value :=
  let n := Bytes.toNat bytes
  match c with
  | unorm8 => .f32 (Single.ofInt n / Single.ofInt 255)
  | snorm8 => .f32 ((Single.ofInt (signedByte n) / Single.ofInt 127).max (-Single.one))
  | uint8 => .u32 n.toUInt32
  | sint8 => .i32 (.ofInt (signedByte n))
  | float16 => .f32 (Number.Half.toSingle (Bytes.toUInt16 bytes))
  | float32 => .f32 ⟨Bytes.toUInt32 bytes⟩
  | uint32 => .u32 (Bytes.toUInt32 bytes)
  | sint32 => .i32 (Bytes.toUInt32 bytes).toInt32

/-- A float inside `[lo, 1]`, counted in steps of `1 / scale` to the nearest, a half going away from
zero. -/
def steps (lo : Single) (scale : Int) (x : Single) : Int :=
  ((x.clamp lo .one * Single.ofInt scale).toIntegral .nearestAway).toIntClamped (-scale) scale

/-- The bytes of a component. -/
def encode (c : Channel) (v : Value) : Run (List UInt8) :=
  match c with
  | unorm8 => (fun x => Bytes.ofNat 1 (steps .zero 255 x).toNat) <$> v.number
  | snorm8 => (fun x => Bytes.ofNat 1 (steps (-Single.one) 127 x % 256).toNat) <$> v.number
  | uint8 => (fun n => Bytes.ofNat 1 n.toNat) <$> v.unsigned
  | sint8 => (fun n => Bytes.ofNat 1 n.toUInt32.toNat) <$> v.signed
  | float16 => (fun x => Bytes.ofUInt16 (Number.Half.ofSingle x)) <$> v.number
  | float32 => (fun x => Bytes.ofUInt32 x.bits) <$> v.number
  | uint32 => Bytes.ofUInt32 <$> v.unsigned
  | sint32 => (fun n => Bytes.ofUInt32 n.toUInt32) <$> v.signed

end Channel

namespace TexelFormat

/-- The format of that name. Colours are not converted, so both spellings of a colour space are the
same format. -/
def ofName? : String → Option TexelFormat
  | "rgba8unorm" | "rgba8unorm-srgb" => some rgba8unorm
  | "rgba8snorm" => some rgba8snorm
  | "rgba8uint" => some rgba8uint
  | "rgba8sint" => some rgba8sint
  | "bgra8unorm" | "bgra8unorm-srgb" => some bgra8unorm
  | "r8unorm" => some r8unorm
  | "r32float" => some r32float
  | "r32uint" => some r32uint
  | "r32sint" => some r32sint
  | "rg32float" => some rg32float
  | "rg32uint" => some rg32uint
  | "rg32sint" => some rg32sint
  | "rgba16float" => some rgba16float
  | "rgba32float" => some rgba32float
  | "rgba32uint" => some rgba32uint
  | "rgba32sint" => some rgba32sint
  | _ => none

/-- How each channel is written. -/
def channel : TexelFormat → Channel
  | rgba8unorm | bgra8unorm | r8unorm => .unorm8
  | rgba8snorm => .snorm8
  | rgba8uint => .uint8
  | rgba8sint => .sint8
  | r32float | rg32float | rgba32float => .float32
  | r32uint | rg32uint | rgba32uint => .uint32
  | r32sint | rg32sint | rgba32sint => .sint32
  | rgba16float => .float16

/-- The number of channels. -/
def channelCount : TexelFormat → Nat
  | r8unorm | r32float | r32uint | r32sint => 1
  | rg32float | rg32uint | rg32sint => 2
  | _ => 4

def bytesPerTexel (f : TexelFormat) : Nat := f.channel.size * f.channelCount

/-- Puts the components into the order of the stored channels, and back: blue and red change places
where blue is stored first. -/
def swapped (f : TexelFormat) (components : List Value) : List Value :=
  match f, components with
  | bgra8unorm, a :: b :: c :: rest => c :: b :: a :: rest
  | _, _ => components

end TexelFormat

/-! ## Texels -/

/-- A texture, seen through the type of the variable it is bound to. -/
structure Texture where
  data : Array UInt8
  /-- Width, height, and depth or number of layers. -/
  size : Extent
  format : TexelFormat
  /-- The number of coordinates, the layer not counted. -/
  dims : Nat := 2
  /-- Whether a layer is given besides the coordinates. -/
  arrayed : Bool := false
  deriving Inhabited

namespace Texture

/-- Whether a list of characters holds another one in one piece. -/
def holds (piece : List Char) : List Char → Bool
  | [] => piece.isEmpty
  | c :: r => piece.isPrefixOf (c :: r) || holds piece r

/-- The texture seen through a type of that name. -/
def withView (t : Texture) (typeName : String) : Texture :=
  let letters := typeName.toList
  { t with
    arrayed := "_array".toList.isSuffixOf letters
    dims := if holds ['1', 'd'] letters then 1 else if holds ['3', 'd'] letters then 3 else 2 }

/-- The number of the texel at some coordinates: each axis is one texel wide at least. -/
def texelIndex : List Int → List Nat → Run Nat
  | c :: cs, n :: ns => do
    let extent := max n 1
    if c < 0 ∨ extent ≤ c.toNat then throw (RunCause.indexOutOfBounds c extent).unplaced
    let rest ← texelIndex cs ns
    return c.toNat + extent * rest
  | _, _ => pure 0

/-- The offset of the texel at some coordinates. -/
def texelOffset (t : Texture) (coords : List Int) : Run Nat := do
  return (← texelIndex coords t.size.toList) * t.format.bytesPerTexel

/-- The offset of a texel all of whose bytes are there. -/
def texelStart (t : Texture) (coords : List Int) : Run Nat := do
  let start ← t.texelOffset coords
  if start + t.format.bytesPerTexel ≤ t.data.size then return start
  else throw (RunCause.indexOutOfBounds start t.data.size).unplaced

/-- Decodes `count` channels from an offset on. -/
def channels (t : Texture) (start count : Nat) : List Value :=
  let c := t.format.channel
  (List.range count).map fun i =>
    c.decode ((Bytes.read? t.data (start + i * c.size) c.size).getD [])

/-- Fills up a texel to four components. -/
def padded (c : Channel) (texel : List Value) : List Value :=
  texel ++ [c.unit false, c.unit false, c.unit false, c.unit true].drop texel.length

/-- The texel at some coordinates, as a vector of four components. -/
def load (t : Texture) (coords : List Int) : Run Value := do
  let start ← t.texelStart coords
  let texel := t.format.swapped (t.channels start t.format.channelCount)
  return .vector (padded t.format.channel texel)

/-- Writes one component after another. -/
def storeChannels (c : Channel) : Nat → List Value → Change (Array UInt8) Unit
  | _, [] => pure ()
  | start, v :: rest => do
    let bytes ← c.encode v
    modify fun data => Bytes.write data start bytes
    storeChannels c (start + c.size) rest

/-- Writes the texel at some coordinates, as many channels as the value has. -/
def store (coords : List Int) (v : Value) : Change Texture Unit := do
  let t ← get
  let start ← t.texelStart coords
  let parts := (t.format.swapped v.components).take t.format.channelCount
  Change.onPart t.data (fun data => { t with data }) (storeChannels t.format.channel start parts)

end Texture

end Wgsl
