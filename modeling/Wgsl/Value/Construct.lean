import Wgsl.Value.Convert

/-! # Building values

Literals, constructors by type, and the reading of bits as another kind.
-/

namespace Wgsl.Value
set_option autoImplicit false

open Number (Single)

/-- The value of a literal. An integer without suffix that does not fit the signed type is unsigned;
integers wrap. -/
def ofLiteral : Literal → Value
  | .bool b => bool b
  | .int n (some 'u') => u32 (n.toUInt64.toUInt32)
  | .int n none => if 0x7fffffff < n then u32 (n.toUInt64.toUInt32) else i32 n.toInt32
  | .int n _ => i32 n.toInt32
  | .float x _ => f32 (.ofDouble x)

/-- The bits of a number. -/
def bits : Value → Run UInt32
  | i32 n => pure n.toUInt32
  | u32 n => pure n
  | f32 x => pure x.bits
  | v => throw (.mismatch ("cannot bitcast " ++ v.typeName))

/-- The number of a kind that the bits spell. -/
def ofBits (kind : ScalarKind) (n : UInt32) : Run Value :=
  match kind with
  | .i32 => pure (i32 n.toInt32)
  | .u32 => pure (u32 n)
  | .f32 => pure (f32 ⟨n⟩)
  | .f16 => pure (f32 (Number.Half.toSingle n.toUInt16))
  | .bool => throw (.mismatch "cannot bitcast to bool")

/-- The bits of a number or of each component, read as another kind. -/
def bitcast (kind : ScalarKind) (v : Value) : Run Value :=
  v.mapComponents fun c => do ofBits kind (← c.bits)

/-- Cuts a list into pieces of one length. -/
def columnsOf (height : Nat) (columns : Nat) (xs : List Single) : List (List Single) :=
  (List.range columns).map fun c => (xs.drop (c * height)).take height

/-- A matrix from the numbers of all arguments in a row. -/
def constructMatrix (columns height : Nat) (args : List Value) : Run Value := do
  let xs ← (args.flatMap components).mapM number
  if xs.length = columns * height then return matrix (columnsOf height columns xs)
  else throw (RunCause.vectorLength (columns * height) xs.length).unplaced

/-- A vector from the components of all arguments in a row; a single component fills it. -/
def constructVector (length : Nat) (kind : ScalarKind) (args : List Value) : Run Value := do
  let parts := match args.flatMap components with
    | [v] => List.replicate length v
    | parts => parts
  if parts.length = length then return vector (← parts.mapM (convert kind))
  else throw (RunCause.vectorLength length parts.length).unplaced

/-- Coerces each argument to the type of the member at its position. -/
def constructFields : List MemberInfo → List Value → Run (List (String × Value))
  | m :: ms, v :: vs => do
    let v ← v.coerceTo m.type
    return (m.name, v) :: (← constructFields ms vs)
  | _, _ => pure []

/-- A value built from arguments that fill a type which is neither matrix nor vector. -/
def constructShape (t : TypeInfo) (inferred : Bool) (args : List Value) : Run Value :=
  match t.shape with
  | .scalar kind =>
    match args with
    | [v] =>
      if v.isScalar then v.convert kind
      else throw (.mismatch ("cannot convert " ++ v.typeName ++ " to " ++ t.name))
    | _ => throw (RunCause.arity t.name 1 args.length).unplaced
  | .array elem _ _ => if inferred then pure (array args) else array <$> args.mapM (coerceTo elem)
  | .struct _ members _ _ =>
    if args.length = members.length then struct t.name <$> constructFields members args
    else throw (RunCause.arity t.name members.length args.length).unplaced
  | _ => throw (.mismatch ("cannot construct " ++ t.name))

/-- A constructor or conversion by type. Without arguments it gives the zero value. When the written
type leaves its component type open (`inferred`), a vector takes the kind of the first argument. -/
def construct (t : TypeInfo) (inferred : Bool) (args : List Value) : Run Value :=
  match args with
  | [] => pure (zeroOf t)
  | first :: _ =>
    match t.matrixShape? with
    | some (columns, height) => constructMatrix columns height args
    | none =>
      match t.vectorLength? with
      | some length =>
        let kind := if inferred then first.scalarKind? else t.scalarKind?
        constructVector length (kind.getD .f32) args
      | none => constructShape t inferred args

end Wgsl.Value
