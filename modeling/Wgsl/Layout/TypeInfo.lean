import Wgsl.Tree.Expr

/-! # Types with their layout

A `TypeInfo` is a type whose size, alignment, strides and member offsets are settled. Sizes are
natural numbers below `2 ^ 32`; where arithmetic could leave that range it goes through `checked`
functions.
-/

namespace Wgsl
set_option autoImplicit false

/-! ## Arithmetic on sizes -/

/-- The number of different sizes. -/
def sizeLimit : Nat := UInt32.size

/-- The size that stands for one that does not fit. -/
def saturatedSize : Nat := sizeLimit - 1

/-- A size, if it fits. -/
def checkedSize (n : Nat) : Option Nat := if n < sizeLimit then some n else none

/-- The least multiple of `k` that is at least `n`, if it fits; `n` itself if `k` is zero. -/
def checkedRoundUp (k n : Nat) : Option Nat :=
  if k = 0 then some n else checkedSize ((n + k - 1) / k * k)

/-- The least multiple of `k` that is at least `n`, or the saturated size. -/
def roundUp (k n : Nat) : Nat := (checkedRoundUp k n).getD saturatedSize

/-! ## Scalars -/

inductive ScalarKind where
  | bool
  | i32
  | u32
  | f32
  | f16
  deriving DecidableEq, Repr, Inhabited

namespace ScalarKind

def name : ScalarKind → String
  | bool => "bool"
  | i32 => "i32"
  | u32 => "u32"
  | f32 => "f32"
  | f16 => "f16"

def ofName? : String → Option ScalarKind
  | "bool" => some bool
  | "i32" => some i32
  | "u32" => some u32
  | "f32" => some f32
  | "f16" => some f16
  | _ => none

/-- The number of bytes of a stored scalar. -/
def size : ScalarKind → Nat
  | f16 => 2
  | _ => 4

end ScalarKind

/-! ## Types -/

/-- Which structure a type stands for. All uses of a declared structure share one identity; a use
with attributes of its own has another. -/
inductive StructKey where
  | declared (name : String)
  | annotated (id : NodeId)
  deriving DecidableEq, Repr, Inhabited

mutual

/-- A type with its layout. -/
inductive TypeInfo where
  | mk (name : String) (attributes : List Attribute) (size align : Nat) (shape : TypeShape)

/-- What a type is made of. -/
inductive TypeShape where
  | scalar (kind : ScalarKind)
  /-- Samplers, pointers, and names that are not declared: nothing that is laid out in bytes. -/
  | handle
  /-- The count is missing in runtime-sized arrays. -/
  | array (element : TypeInfo) (count : Option Nat) (stride : Nat)
  | struct (key : StructKey) (members : List MemberInfo) (startLine endLine : Nat)
  /-- A generator and its parameters. -/
  | template (base : String) (param : Option TypeInfo) (access space : Option String)

inductive MemberInfo where
  | mk (name : String) (type : TypeInfo) (offset size align : Nat)

end

namespace MemberInfo

def name : MemberInfo → String
  | mk n _ _ _ _ => n

def type : MemberInfo → TypeInfo
  | mk _ t _ _ _ => t

def offset : MemberInfo → Nat
  | mk _ _ o _ _ => o

def size : MemberInfo → Nat
  | mk _ _ _ s _ => s

def align : MemberInfo → Nat
  | mk _ _ _ _ a => a

end MemberInfo

/-- The length of a vector generator. -/
def vectorLength? : String → Option Nat
  | "vec2" => some 2
  | "vec3" => some 3
  | "vec4" => some 4
  | _ => none

/-- The columns and rows of a matrix generator. -/
def matrixShape? : String → Option (Nat × Nat)
  | "mat2x2" => some (2, 2)
  | "mat2x3" => some (2, 3)
  | "mat2x4" => some (2, 4)
  | "mat3x2" => some (3, 2)
  | "mat3x3" => some (3, 3)
  | "mat3x4" => some (3, 4)
  | "mat4x2" => some (4, 2)
  | "mat4x3" => some (4, 3)
  | "mat4x4" => some (4, 4)
  | _ => none

namespace TypeInfo

def name : TypeInfo → String
  | mk n _ _ _ _ => n

def attributes : TypeInfo → List Attribute
  | mk _ a _ _ _ => a

def size : TypeInfo → Nat
  | mk _ _ s _ _ => s

def align : TypeInfo → Nat
  | mk _ _ _ a _ => a

def shape : TypeInfo → TypeShape
  | mk _ _ _ _ k => k

/-- A type that has no bytes. -/
def handle (name : String) : TypeInfo := mk name [] 0 1 .handle

def scalar (kind : ScalarKind) : TypeInfo := mk kind.name [] kind.size kind.size (.scalar kind)

instance : Inhabited TypeInfo := ⟨handle ""⟩

/-- Element of an array or parameter of a generator. -/
def param? (t : TypeInfo) : Option TypeInfo :=
  match t.shape with
  | .array element _ _ => some element
  | .template _ param _ _ => param
  | _ => none

/-- The name of the generator. -/
def base? (t : TypeInfo) : Option String :=
  match t.shape with
  | .template base _ _ _ => some base
  | _ => none

def members? (t : TypeInfo) : Option (List MemberInfo) :=
  match t.shape with
  | .struct _ members _ _ => some members
  | _ => none

def member? (t : TypeInfo) (name : String) : Option MemberInfo :=
  t.members?.bind fun ms => ms.find? fun m => m.name = name

def vectorLength? (t : TypeInfo) : Option Nat := t.base?.bind Wgsl.vectorLength?

def matrixShape? (t : TypeInfo) : Option (Nat × Nat) := t.base?.bind Wgsl.matrixShape?

def isTexture (t : TypeInfo) : Bool := "texture_".toList.isPrefixOf t.name.toList

/-- Whether values of the generator are made of scalars of its parameter. -/
def holdsScalars (base : String) : Bool :=
  (Wgsl.vectorLength? base).isSome || (Wgsl.matrixShape? base).isSome || base = "atomic"

mutual

/-- The kind of a scalar, or of the components of a vector, matrix or atomic. Components of no
known kind count as single-precision floats. -/
def scalarKind? : TypeInfo → Option ScalarKind
  | mk _ _ _ _ shape => shapeScalarKind? shape

def shapeScalarKind? : TypeShape → Option ScalarKind
  | .scalar kind => some kind
  | .template base param _ _ =>
    if holdsScalars base then some ((paramScalarKind? param).getD .f32) else none
  | _ => none

def paramScalarKind? : Option TypeInfo → Option ScalarKind
  | none => none
  | some t => scalarKind? t

end

end TypeInfo

end Wgsl
