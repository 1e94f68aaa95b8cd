import Wgsl.Tree.Operator
import Wgsl.Value.Convert

/-! # Operators on values

Two scalars of different kinds meet in the wider one: float before unsigned before signed. Vectors
work component by component and a scalar goes with every component. Matrices have sums, products and
equality. Integer arithmetic wraps; division by zero gives the dividend and its remainder is zero.
-/

namespace Wgsl.Value
set_option autoImplicit false

open Number (Single)

/-! ## Scalars -/

/-- Two scalars brought to one kind. -/
inductive Pair where
  | bools (a b : Bool)
  | signed (a b : Int32)
  | unsigned (a b : UInt32)
  | singles (a b : Single)

def promoteSingles (l r : Value) : Run Pair := do return .singles (← l.number) (← r.number)

def promoteUnsigned (l r : Value) : Run Pair := do return .unsigned (← l.unsigned) (← r.unsigned)

def promoteSigned (l r : Value) : Run Pair := do return .signed (← l.signed) (← r.signed)

/-- Brings two scalars to the wider of their kinds. -/
def promote (l r : Value) : Run Pair :=
  match l, r with
  | bool a, bool b => pure (.bools a b)
  | f32 _, _ => promoteSingles l r
  | _, f32 _ => promoteSingles l r
  | u32 _, _ => promoteUnsigned l r
  | _, u32 _ => promoteUnsigned l r
  | i32 _, _ => promoteSigned l r
  | _, i32 _ => promoteSigned l r
  | _, _ =>
    throw (.mismatch ("operands " ++ l.typeName ++ " and " ++ r.typeName ++ " are not scalars"))

/-- How two floats compare; a NaN compares with nothing. -/
def singleOrdering? (a b : Single) : Option Ordering :=
  if a.lt b then some .lt else if b.lt a then some .gt else if a.eq b then some .eq else none

/-- The error for an operator that a kind does not have. -/
def notFor (op : BinaryOp) (kind : String) : RunError :=
  .mismatch ("operator '" ++ op.symbol ++ "' does not apply to " ++ kind)

/-- The outcome of a comparison. Without an order only `!=` holds. -/
def compared (op : BinaryOp) (order : Option Ordering) : Run Value :=
  match op, order with
  | .logicalAnd, _ | .logicalOr, _ =>
    throw (.mismatch ("operator '" ++ op.symbol ++ "' needs bool operands"))
  | _, none => pure (bool (op = .notEqual))
  | .equal, some o => pure (bool (o = .eq))
  | .notEqual, some o => pure (bool (o ≠ .eq))
  | .less, some o => pure (bool (o = .lt))
  | .lessEqual, some o => pure (bool (o ≠ .gt))
  | .greater, some o => pure (bool (o = .gt))
  | .greaterEqual, some o => pure (bool (o ≠ .lt))
  | _, _ => throw (.mismatch ("unsupported operator '" ++ op.symbol ++ "'"))

def boolBinary (op : BinaryOp) (a b : Bool) : Run Value :=
  match op with
  | .equal => pure (bool (a == b))
  | .notEqual => pure (bool (a != b))
  | .logicalAnd | .bitAnd => pure (bool (a && b))
  | .logicalOr | .bitOr => pure (bool (a || b))
  | .bitXor => pure (bool (a != b))
  | _ => throw (notFor op "bool")

def signedBinary (op : BinaryOp) (a b : Int32) : Run Value :=
  match op with
  | .add => pure (i32 (a + b))
  | .subtract => pure (i32 (a - b))
  | .multiply => pure (i32 (a * b))
  | .divide => pure (i32 (if b = 0 then a else a / b))
  | .modulo => pure (i32 (if b = 0 then 0 else a % b))
  | .bitAnd => pure (i32 (a &&& b))
  | .bitOr => pure (i32 (a ||| b))
  | .bitXor => pure (i32 (a ^^^ b))
  | _ => compared op (some (compare a.toInt b.toInt))

def unsignedBinary (op : BinaryOp) (a b : UInt32) : Run Value :=
  match op with
  | .add => pure (u32 (a + b))
  | .subtract => pure (u32 (a - b))
  | .multiply => pure (u32 (a * b))
  | .divide => pure (u32 (if b = 0 then a else a / b))
  | .modulo => pure (u32 (if b = 0 then 0 else a % b))
  | .bitAnd => pure (u32 (a &&& b))
  | .bitOr => pure (u32 (a ||| b))
  | .bitXor => pure (u32 (a ^^^ b))
  | _ => compared op (some (compare a.toNat b.toNat))

def singleBinary (op : BinaryOp) (a b : Single) : Run Value :=
  match op with
  | .add => pure (f32 (a + b))
  | .subtract => pure (f32 (a - b))
  | .multiply => pure (f32 (a * b))
  | .divide => pure (f32 (a / b))
  | .modulo => pure (f32 (a.remainder b))
  | .bitAnd | .bitOr | .bitXor => throw (notFor op "f32")
  | _ => compared op (singleOrdering? a b)

/-- Shifts an integer by an amount below its width. -/
def shift (left : Bool) (v : Value) (amount : UInt32) : Run Value :=
  match v with
  | i32 n =>
    pure (i32 (if left then (n.toUInt32 <<< amount).toInt32 else n >>> amount.toInt32))
  | u32 n => pure (u32 (if left then n <<< amount else n >>> amount))
  | _ => throw (.mismatch ("cannot shift " ++ v.typeName))

/-- A binary operator on scalars. A shift takes its amount modulo the width, and the amount does not
change the kind of the shifted value. -/
def scalarBinary (op : BinaryOp) (l r : Value) : Run Value :=
  match op with
  | .shiftLeft => do shift true l ((← r.unsigned) &&& 31)
  | .shiftRight => do shift false l ((← r.unsigned) &&& 31)
  | _ => do
    match ← promote l r with
    | .bools a b => boolBinary op a b
    | .signed a b => signedBinary op a b
    | .unsigned a b => unsignedBinary op a b
    | .singles a b => singleBinary op a b

/-! ## Matrices -/

/-- A sum of floats, from left to right. It starts from negative zero, which leaves every first term
as it is. -/
def sum (xs : List Single) : Single := xs.foldl (· + ·) .negZero

/-- The sum of the products of two lists. -/
def sumOfProducts (xs ys : List Single) : Single := sum (List.zipWith (· * ·) xs ys)

/-- One row of a matrix. -/
def row (columns : List (List Single)) (r : Nat) : List Single :=
  columns.map fun c => c.getD r .zero

/-- All rows of a matrix. -/
def rows (columns : List (List Single)) : List (List Single) :=
  (List.range (rowCount columns)).map (row columns)

/-- Numeric equality of two lists of floats. -/
def sameSingles : List Single → List Single → Bool
  | [], [] => true
  | x :: xs, y :: ys => x.eq y && sameSingles xs ys
  | _, _ => false

/-- Numeric equality of two matrices. -/
def sameColumns : List (List Single) → List (List Single) → Bool
  | [], [] => true
  | x :: xs, y :: ys => sameSingles x y && sameColumns xs ys
  | _, _ => false

/-- The sum of two matrices, the second one taken `sign` times. -/
def addColumns (sign : Single) (a b : List (List Single)) : List (List Single) :=
  List.zipWith (List.zipWith fun p q => p + sign * q) a b

/-- A matrix times a number. -/
def scale (columns : List (List Single)) (s : Single) : List (List Single) :=
  columns.map fun c => c.map (· * s)

/-- The error for an operator that two values do not have. -/
def notForBoth (op : BinaryOp) (l r : Value) : RunError :=
  .mismatch ("operator '" ++ op.symbol ++ "' does not apply to " ++ l.typeName ++ " and "
    ++ r.typeName)

/-- A binary operator of which one operand is a matrix. -/
def matrixBinary (op : BinaryOp) (l r : Value) : Run Value :=
  match op, l, r with
  | .multiply, matrix m, vector v => do
    let v ← v.mapM number
    if v.length ≠ m.length then throw (RunCause.vectorLength m.length v.length).unplaced
    return ofSingles ((rows m).map fun row => sumOfProducts row v)
  | .multiply, vector v, matrix m => do
    let v ← v.mapM number
    let items ← m.mapM fun c =>
      if c.length = v.length then pure (sumOfProducts c v)
      else throw (RunCause.vectorLength v.length c.length).unplaced
    return ofSingles items
  | .multiply, matrix a, matrix b =>
    if a.length = rowCount b then
      pure (matrix (b.map fun column => (rows a).map fun row => sumOfProducts row column))
    else throw (.mismatch "matrix shapes do not compose")
  | .multiply, matrix m, s =>
    if s.isScalar then (matrix ∘ scale m) <$> s.number else throw (notForBoth op l r)
  | .multiply, s, matrix m =>
    if s.isScalar then (matrix ∘ scale m) <$> s.number else throw (notForBoth op l r)
  | .add, matrix a, matrix b =>
    if a.length = b.length then pure (matrix (addColumns .one a b))
    else throw (.mismatch "matrix shapes differ")
  | .subtract, matrix a, matrix b =>
    if a.length = b.length then pure (matrix (addColumns (-Single.one) a b))
    else throw (.mismatch "matrix shapes differ")
  | .equal, matrix a, matrix b => pure (bool (sameColumns a b))
  | .notEqual, matrix a, matrix b => pure (bool (!sameColumns a b))
  | _, _, _ => throw (notForBoth op l r)

/-! ## All values -/

/-- Applies a function to the components of two vectors of one length, or to a vector and a value
that goes with every component, or to two values that are no vectors. -/
def zipComponents (f : Value → Value → Run Value) (l r : Value) : Run Value :=
  match l, r with
  | vector a, vector b =>
    if a.length = b.length then vector <$> (a.zip b).mapM fun (x, y) => f x y
    else throw (RunCause.vectorLength a.length b.length).unplaced
  | vector a, s => vector <$> a.mapM fun x => f x s
  | s, vector b => vector <$> b.mapM fun y => f s y
  | _, _ => f l r

/-- A binary operator. -/
def binary (op : BinaryOp) (l r : Value) : Run Value :=
  match l, r with
  | matrix _, _ => matrixBinary op l r
  | _, matrix _ => matrixBinary op l r
  | _, _ => zipComponents (scalarBinary op) l r

/-- A unary operator on a value that is no vector. -/
def scalarUnary (op : UnaryOp) (v : Value) : Run Value :=
  match op, v with
  | .negate, i32 n => pure (i32 (-n))
  | .negate, u32 n => pure (u32 (0 - n))
  | .negate, f32 x => pure (f32 (-x))
  | .not, bool b => pure (bool (!b))
  | .complement, i32 n => pure (i32 (~~~n))
  | .complement, u32 n => pure (u32 (~~~n))
  | _, _ =>
    throw (.mismatch ("operator '" ++ op.symbol ++ "' does not apply to " ++ v.typeName))

/-- A unary operator. -/
def unary (op : UnaryOp) (v : Value) : Run Value :=
  match op, v with
  | .negate, matrix m => pure (matrix (m.map fun c => c.map (- ·)))
  | _, _ => v.mapComponents (scalarUnary op)

end Wgsl.Value
