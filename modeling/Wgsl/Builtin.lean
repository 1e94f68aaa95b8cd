import Wgsl.Fault

/-! # Built-in functions

Names, argument counts and categories of the functions that every shader can call. The table is
grouped by category and argument count.
-/

namespace Wgsl
set_option autoImplicit false

/-- What a built-in function is about. -/
inductive BuiltinCategory where
  /-- Component by component on numbers. -/
  | numeric
  /-- Bits of integers. -/
  | bits
  /-- Geometry of vectors. -/
  | vector
  | matrix
  | logical
  | pack
  | array
  | atomic
  | texture
  /-- Derivatives are zero: there are no neighbouring fragments. -/
  | derivative
  /-- Barriers do nothing: invocations run one after another. -/
  | sync
  /-- Subgroup and quad operations see a group of one invocation. -/
  | subgroup
  deriving DecidableEq, Repr, Inhabited

/-- Built-in functions of one category that take the same number of arguments. -/
structure BuiltinGroup where
  category : BuiltinCategory
  minArgs : Nat
  maxArgs : Nat
  names : List String

/-- A built-in function. -/
structure Builtin where
  name : String
  category : BuiltinCategory
  minArgs : Nat
  maxArgs : Nat
  deriving Repr

namespace Builtin

/-- The table of built-in functions. -/
def groups : List BuiltinGroup := [
  ⟨.numeric, 1, 1,
    ["abs", "acos", "acosh", "asin", "asinh", "atan", "atanh", "ceil", "cos", "cosh", "degrees",
      "exp", "exp2", "floor", "fract", "inverseSqrt", "log", "log2", "quantizeToF16", "radians",
      "round", "saturate", "sign", "sin", "sinh", "sqrt", "tan", "tanh", "trunc", "frexp", "modf"]⟩,
  ⟨.numeric, 2, 2,
    ["atan2", "max", "min", "pow", "step", "ldexp"]⟩,
  ⟨.numeric, 3, 3,
    ["clamp", "fma", "mix", "smoothstep", "select"]⟩,
  ⟨.logical, 1, 1,
    ["all", "any"]⟩,
  ⟨.derivative, 1, 1,
    ["dpdx", "dpdxCoarse", "dpdxFine", "dpdy", "dpdyCoarse", "dpdyFine", "fwidth",
      "fwidthCoarse", "fwidthFine"]⟩,
  ⟨.bits, 1, 1,
    ["countLeadingZeros", "countOneBits", "countTrailingZeros", "firstLeadingBit",
      "firstTrailingBit", "reverseBits"]⟩,
  ⟨.bits, 3, 3,
    ["extractBits"]⟩,
  ⟨.bits, 4, 4,
    ["insertBits"]⟩,
  ⟨.vector, 1, 1,
    ["length", "normalize"]⟩,
  ⟨.vector, 2, 2,
    ["cross", "distance", "dot", "reflect"]⟩,
  ⟨.vector, 3, 3,
    ["faceForward", "refract"]⟩,
  ⟨.array, 1, 1,
    ["arrayLength"]⟩,
  ⟨.matrix, 1, 1,
    ["determinant", "transpose"]⟩,
  ⟨.pack, 1, 1,
    ["pack4x8snorm", "pack4x8unorm", "pack4xI8", "pack4xU8", "pack4xI8Clamp", "pack4xU8Clamp",
      "pack2x16snorm", "pack2x16unorm", "pack2x16float", "unpack4x8snorm", "unpack4x8unorm",
      "unpack4xI8", "unpack4xU8", "unpack2x16snorm", "unpack2x16unorm", "unpack2x16float"]⟩,
  ⟨.pack, 2, 2,
    ["dot4U8Packed", "dot4I8Packed"]⟩,
  ⟨.atomic, 1, 1,
    ["atomicLoad"]⟩,
  ⟨.atomic, 2, 2,
    ["atomicStore", "atomicAdd", "atomicSub", "atomicMax", "atomicMin", "atomicAnd", "atomicOr",
      "atomicXor", "atomicExchange"]⟩,
  ⟨.atomic, 3, 3,
    ["atomicCompareExchangeWeak"]⟩,
  ⟨.texture, 1, 2,
    ["textureDimensions"]⟩,
  ⟨.texture, 2, 4,
    ["textureLoad"]⟩,
  ⟨.texture, 3, 4,
    ["textureStore"]⟩,
  ⟨.texture, 1, 1,
    ["textureNumLayers", "textureNumLevels", "textureNumSamples"]⟩,
  ⟨.texture, 3, 6,
    ["textureSample", "textureSampleBias", "textureSampleCompare", "textureSampleCompareLevel",
      "textureSampleGrad", "textureSampleLevel", "textureSampleBaseClampToEdge", "textureGather",
      "textureGatherCompare"]⟩,
  ⟨.sync, 0, 0,
    ["storageBarrier", "textureBarrier", "workgroupBarrier"]⟩,
  ⟨.sync, 1, 1,
    ["workgroupUniformLoad"]⟩,
  ⟨.subgroup, 0, 0,
    ["subgroupElect"]⟩,
  ⟨.subgroup, 1, 1,
    ["subgroupAdd", "subgroupExclusiveAdd", "subgroupInclusiveAdd", "subgroupMul",
      "subgroupExclusiveMul", "subgroupInclusiveMul", "subgroupMin", "subgroupMax",
      "subgroupAnd", "subgroupOr", "subgroupXor", "subgroupAll", "subgroupAny", "subgroupBallot",
      "subgroupBroadcastFirst", "quadSwapX", "quadSwapY", "quadSwapDiagonal"]⟩,
  ⟨.subgroup, 2, 2,
    ["subgroupBroadcast", "subgroupShuffle", "subgroupShuffleDown", "subgroupShuffleUp",
      "subgroupShuffleXor", "quadBroadcast"]⟩]

/-- All built-in functions, in the order of the table. -/
def all : List Builtin :=
  groups.flatMap fun g => g.names.map fun name => ⟨name, g.category, g.minArgs, g.maxArgs⟩

/-- The built-in function of that name. -/
def find? (name : String) : Option Builtin :=
  (groups.find? fun g => g.names.contains name).map fun g =>
    ⟨name, g.category, g.minArgs, g.maxArgs⟩

/-- Whether the name is that of a built-in function. -/
def isBuiltin (name : String) : Bool := (find? name).isSome

/-- Accepts a number of arguments, or names the nearest number that would do. -/
def checkArity (name : String) (found : Nat) : Run Unit :=
  match find? name with
  | none => throw (RunCause.unknownFunction name).unplaced
  | some b =>
    if found < b.minArgs then throw (RunCause.arity name b.minArgs found).unplaced
    else if b.maxArgs < found then throw (RunCause.arity name b.maxArgs found).unplaced
    else pure ()

end Builtin

end Wgsl
