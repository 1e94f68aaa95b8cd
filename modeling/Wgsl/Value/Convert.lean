import Wgsl.Value

/-! # Conversions of values

Scalars convert freely between kinds: floats are cut toward zero and held inside the range of the
integer type, integers of the two signs share their bits, and truth values count as one and zero. A
value that is declared or assigned takes the kind of the place it goes to.
-/

namespace Wgsl.Value
set_option autoImplicit false

open Number (Single)

/-! ## Scalars as numbers -/

/-- The error for a value where a scalar is needed. -/
def expected (what : String) (v : Value) : RunError :=
  .mismatch ("expected " ++ what ++ ", found " ++ v.typeName)

/-- A scalar as a float. -/
def number : Value → Run Single
  | f32 x => pure x
  | i32 n => pure (.ofInt n.toInt)
  | u32 n => pure (.ofInt n.toNat)
  | bool b => pure (if b then .one else .zero)
  | v => throw (v.expected "a number")

/-- The least and the greatest of the integers that scalars are read as. -/
def leastInteger : Int := Int64.minValue.toInt
def greatestInteger : Int := Int64.maxValue.toInt

/-- A scalar as an integer. -/
def integer : Value → Run Int
  | i32 n => pure n.toInt
  | u32 n => pure n.toNat
  | f32 x => pure (x.toIntClamped leastInteger greatestInteger)
  | bool b => pure (if b then 1 else 0)
  | v => throw (v.expected "an integer")

/-- The integer part of a float, held inside the signed range. -/
def signedOfSingle (x : Single) : Int32 :=
  .ofInt (x.toIntClamped Int32.minValue.toInt Int32.maxValue.toInt)

/-- The integer part of a float, held inside the unsigned range. -/
def unsignedOfSingle (x : Single) : UInt32 := (x.toIntClamped 0 (UInt32.size - 1)).toNat.toUInt32

/-- A scalar as a signed integer. -/
def signed : Value → Run Int32
  | u32 n => pure n.toInt32
  | f32 x => pure (signedOfSingle x)
  | v => Int32.ofInt <$> v.integer

/-- A scalar as an unsigned integer. -/
def unsigned : Value → Run UInt32
  | i32 n => pure n.toUInt32
  | f32 x => pure (unsignedOfSingle x)
  | v => (fun n : Int => n.toNat.toUInt32) <$> v.integer

/-- A scalar as a truth value: whatever is not zero is true. -/
def truth : Value → Run Bool
  | bool b => pure b
  | i32 n => pure (n != 0)
  | u32 n => pure (n != 0)
  | f32 x => pure (!x.eq .zero)
  | v => throw (v.expected "a bool")

/-- All components as floats. -/
def numbers (v : Value) : Run (List Single) := v.components.mapM number

/-! ## Values of a kind -/

/-- The zero of a kind. -/
def zero : ScalarKind → Value
  | .bool => bool false
  | .i32 => i32 0
  | .u32 => u32 0
  | .f32 | .f16 => f32 .zero

/-- A number of the host as a scalar; integers are held inside their range. -/
def ofDouble (x : Float) : ScalarKind → Value
  | .bool => bool (x != 0)
  | .i32 => i32 (.ofInt (Number.Double.toIntClamped Int32.minValue.toInt Int32.maxValue.toInt x))
  | .u32 => u32 (Number.Double.toIntClamped 0 (UInt32.size - 1) x).toNat.toUInt32
  | .f32 | .f16 => f32 (.ofDouble x)

/-- A scalar converted to a kind. -/
def convertScalar (kind : ScalarKind) (v : Value) : Run Value :=
  match kind with
  | .bool => bool <$> v.truth
  | .i32 => i32 <$> v.signed
  | .u32 => u32 <$> v.unsigned
  | .f32 | .f16 => f32 <$> v.number

/-- A scalar or the components of a vector converted to a kind. -/
def convert (kind : ScalarKind) (v : Value) : Run Value := v.mapComponents (convertScalar kind)

/-- The value in the shape of a type, where the two go together: scalars and components take the
kind of the type, a scalar fills a vector, and everything else is kept. -/
def coerceTo (t : TypeInfo) (v : Value) : Run Value :=
  match t.scalarKind? with
  | none => pure v
  | some kind =>
    match v.vectorLength?, t.vectorLength? with
    | some found, some length =>
      if found = length then v.convert kind
      else throw (RunCause.vectorLength length found).unplaced
    | none, some length =>
      if v.isScalar then do
        let c ← v.convert kind
        return vector (List.replicate length c)
      else pure v
    | none, none =>
      if v.isScalar && t.matrixShape?.isNone then v.convert kind else pure v
    | some _, none => pure v

/-- The value in the kind of another one, where both have a kind. -/
def inKindOf (old v : Value) : Run Value :=
  match old.scalarKind?, v.scalarKind? with
  | some kind, some found => if kind = found then pure v else v.convert kind
  | _, _ => pure v

/-- The value in the kind of the value that it replaces: this applies to two scalars and to two
vectors, whose lengths must agree. -/
def coerceLike (old v : Value) : Run Value :=
  match old.vectorLength?, v.vectorLength? with
  | some before, some after =>
    if before = after then inKindOf old v else throw (RunCause.vectorLength before after).unplaced
  | none, none => if old.isScalar && v.isScalar then inKindOf old v else pure v
  | _, _ => pure v

/-! ## Zero values of types -/

/-- The zero of a generated type. -/
def zeroOfTemplate (base : String) (kind : ScalarKind) : Value :=
  match matrixShape? base with
  | some (columns, rows) => matrix (List.replicate columns (List.replicate rows .zero))
  | none =>
    match Wgsl.vectorLength? base with
    | some length => vector (List.replicate length (zero kind))
    | none => if base = "atomic" then zero kind else void

/-- The zero of a type without layout. -/
def zeroOfHandle (name : String) : Value :=
  if "sampler".toList.isPrefixOf name.toList then sampler else void

mutual

/-- The value that a variable of the type starts with. Runtime-sized arrays start empty. -/
def zeroOf : TypeInfo → Value
  | .mk name _ _ _ shape => zeroOfShape name shape

def zeroOfShape (name : String) : TypeShape → Value
  | .scalar kind => zero kind
  | .handle => zeroOfHandle name
  | .array element count _ => array (List.replicate (count.getD 0) (zeroOf element))
  | .struct _ members _ _ => struct name (zeroFields members)
  | .template base param _ _ => zeroOfTemplate base ((TypeInfo.paramScalarKind? param).getD .f32)

def zeroFields : List MemberInfo → List (String × Value)
  | [] => []
  | .mk name type _ _ _ :: r => (name, zeroOf type) :: zeroFields r

end

end Wgsl.Value
