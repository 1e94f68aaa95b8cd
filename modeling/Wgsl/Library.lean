import Wgsl.Library.Geometry
import Wgsl.Library.Packing

/-! # The built-in library without memory

The functions whose result depends on their arguments alone, by name and number of arguments.
Subgroup functions see a group of one invocation, and barriers do nothing.
-/

namespace Wgsl.Library
set_option autoImplicit false

open Number (Single)

/-- Functions without arguments. -/
def nullary? : String → Option (Run Value)
  | "storageBarrier" | "textureBarrier" | "workgroupBarrier" => some (pure .void)
  | "subgroupElect" => some (pure (.bool true))
  | _ => none

/-- The kind that a group function works in. -/
def groupKind (v : Value) : ScalarKind := v.scalarKind?.getD .f32

/-- Functions of one argument that neither map a float nor pack. -/
def otherUnary? (name : String) (a : Value) : Option (Run Value) :=
  match name with
  | "abs" => some (a.mapComponents abs)
  | "sign" => some (a.mapComponents sign)
  | "all" => some (all a)
  | "any" => some (any a)
  | "frexp" => some (frexp a)
  | "modf" => some (modf a)
  | "countLeadingZeros" => some (overWords leadingZeros a)
  | "countOneBits" => some (overWords oneBits a)
  | "countTrailingZeros" => some (overWords trailingZeros a)
  | "reverseBits" => some (overWords reverseBits a)
  | "firstLeadingBit" => some (a.mapComponents firstLeadingBit)
  | "firstTrailingBit" => some (overWords firstTrailingBit a)
  | "length" => some (.f32 <$> length a)
  | "normalize" => some (normalize a)
  | "transpose" => some (transpose a)
  | "determinant" => some (determinant a)
  | "textureNumLevels" | "textureNumSamples" => some (pure (.u32 1))
  | "subgroupExclusiveAdd" => some (a.mapComponents fun v => pure (.zero (groupKind v)))
  | "subgroupExclusiveMul" => some (a.mapComponents fun v => (Value.i32 1).convert (groupKind v))
  | "subgroupBallot" =>
    some do
      let b ← a.truth
      return .vector [.u32 (if b then 1 else 0), .u32 0, .u32 0, .u32 0]
  | "subgroupAdd" | "subgroupInclusiveAdd" | "subgroupMul" | "subgroupInclusiveMul" | "subgroupMin"
  | "subgroupMax" | "subgroupAnd" | "subgroupOr" | "subgroupXor" | "subgroupAll" | "subgroupAny"
  | "subgroupBroadcastFirst" | "quadSwapX" | "quadSwapY" | "quadSwapDiagonal" => some (pure a)
  | _ => none

/-- Functions of one argument. -/
def unary? (name : String) (a : Value) : Option (Run Value) :=
  match singleFunction? name with
  | some f => some (overSingles f a)
  | none =>
    match packing? name with
    | some f => some (f a)
    | none => otherUnary? name a

/-- Functions of two arguments. -/
def binary? (name : String) (a b : Value) : Option (Run Value) :=
  match name with
  | "atan2" => some (overPairs (Single.lift₂ Float32.atan2) a b)
  | "pow" => some (overPairs (Single.lift₂ Float32.pow) a b)
  | "step" => some (overPairs step a b)
  | "ldexp" => some (ldexp a b)
  | "max" => some (max a b)
  | "min" => some (min a b)
  | "dot" => some (dot a b)
  | "distance" => some (.f32 <$> distance a b)
  | "cross" => some (cross a b)
  | "reflect" => some (reflect a b)
  | "dot4U8Packed" => some (dotUnsignedBytes a b)
  | "dot4I8Packed" => some (dotSignedBytes a b)
  | "subgroupBroadcast" | "subgroupShuffle" | "subgroupShuffleDown" | "subgroupShuffleUp"
  | "subgroupShuffleXor" | "quadBroadcast" => some (pure a)
  | _ => none

/-- Functions of three arguments. -/
def ternary? (name : String) (a b c : Value) : Option (Run Value) :=
  match name with
  | "clamp" => some (clamp a b c)
  | "fma" => some (overTriples Single.fusedMulAdd a b c)
  | "mix" => some (overTriples mix a b c)
  | "smoothstep" => some (overTriples smoothstep a b c)
  | "select" => some (select a b c)
  | "faceForward" => some (faceForward a b c)
  | "refract" => some do refract a b (← c.number)
  | "extractBits" =>
    some do
      let offset ← b.unsigned
      let count ← c.unsigned
      a.mapComponents (extractBits offset count)
  | _ => none

/-- Functions of four arguments. -/
def quaternary? (name : String) (a b c d : Value) : Option (Run Value) :=
  match name with
  | "insertBits" =>
    some do
      let offset ← c.unsigned
      let count ← d.unsigned
      Value.zipComponents (insertBits offset count) a b
  | _ => none

/-- The outcome of a function that needs no memory, if the name is that of one. -/
def call? (name : String) : List Value → Option (Run Value)
  | [] => nullary? name
  | [a] => unary? name a
  | [a, b] => binary? name a b
  | [a, b, c] => ternary? name a b c
  | [a, b, c, d] => quaternary? name a b c d
  | _ => none

end Wgsl.Library
