import Wgsl.Fault
import Wgsl.Table
import Wgsl.Tree.Expr

/-! # Constant expressions

The value of an expression built from literals, named constants, operators, scalar conversions and a
few pure functions. It serves array counts and attribute arguments. What cannot be evaluated has no
value; only a `clamp` on integers over an empty range is a fault.

Integers are sixty-four bits wide and wrap. Naming a constant or entering an operand goes one level
down, and sixty-five levels are allowed, so constants that name themselves have no value.
-/

namespace Wgsl
set_option autoImplicit false

/-- The value of a constant expression. -/
inductive Constant where
  | bool (value : Bool)
  | int (value : Int64)
  | float (value : Float)
  deriving Inhabited

namespace Constant

open Number

def toFloat : Constant → Float
  | bool b => if b then 1.0 else 0.0
  | int i => Double.ofInt i.toInt
  | float f => f

/-- The integer; a float is cut toward zero and held inside the range. -/
def toInt64 : Constant → Int64
  | bool b => if b then 1 else 0
  | int i => i
  | float f => Int64.ofInt (Double.toIntClamped Int64.minValue.toInt Int64.maxValue.toInt f)

def toUInt32? (c : Constant) : Option UInt32 :=
  let n := c.toInt64.toInt
  if 0 ≤ n ∧ n < UInt32.size then some n.toNat.toUInt32 else none

def toBool : Constant → Bool
  | bool b => b
  | int i => i != 0
  | float f => f != 0.0

def ofLiteral : Literal → Constant
  | .bool b => bool b
  | .int value _ => int value
  | .float value _ => float value

/-- Conversion to a scalar type, if the name is one. -/
def convert? (type : String) (c : Constant) : Option Constant :=
  match type with
  | "i32" => some (int c.toInt64.toInt32.toInt64)
  | "u32" => some (int (Int64.ofNat (c.toInt64.toUInt64.toNat % UInt32.size)))
  | "f32" => some (float c.toFloat)
  | "f16" => some (float c.toFloat)
  | "bool" => some (bool c.toBool)
  | _ => none

def unary? : UnaryOp → Constant → Option Constant
  | .negate, int i => some (int (-i))
  | .negate, float f => some (float (-f))
  | .not, bool b => some (bool !b)
  | .complement, int i => some (int (~~~i))
  | _, _ => none

def boolBinary? (op : BinaryOp) (a b : Bool) : Option Constant :=
  match op with
  | .logicalAnd | .bitAnd => some (bool (a && b))
  | .logicalOr | .bitOr => some (bool (a || b))
  | .equal => some (bool (a == b))
  | .notEqual | .bitXor => some (bool (a != b))
  | _ => none

/-- The low thirty-two bits of a shift amount, if they are less than sixty-four. -/
def shiftAmount? (b : Int64) : Option Int64 :=
  let n := b.toUInt64.toNat % UInt32.size
  if n < 64 then some (Int64.ofNat n) else none

/-- Whether the quotient of two integers exists and fits. -/
def divides (a b : Int64) : Bool := b != 0 && !(a == Int64.minValue && b == -1)

def intBinary? (op : BinaryOp) (a b : Int64) : Option Constant :=
  match op with
  | .add => some (int (a + b))
  | .subtract => some (int (a - b))
  | .multiply => some (int (a * b))
  | .divide => if divides a b then some (int (a / b)) else none
  | .modulo => if divides a b then some (int (a % b)) else none
  | .bitAnd => some (int (a &&& b))
  | .bitOr => some (int (a ||| b))
  | .bitXor => some (int (a ^^^ b))
  | .shiftLeft => (shiftAmount? b).map fun n => int (a <<< n)
  | .shiftRight => (shiftAmount? b).map fun n => int (a >>> n)
  | .equal => some (bool (a == b))
  | .notEqual => some (bool (a != b))
  | .less => some (bool (decide (a < b)))
  | .lessEqual => some (bool (decide (a ≤ b)))
  | .greater => some (bool (decide (b < a)))
  | .greaterEqual => some (bool (decide (b ≤ a)))
  | .logicalAnd | .logicalOr => none

def floatBinary? (op : BinaryOp) (a b : Float) : Option Constant :=
  match op with
  | .add => some (float (a + b))
  | .subtract => some (float (a - b))
  | .multiply => some (float (a * b))
  | .divide => some (float (a / b))
  | .modulo => some (float (Double.remainder a b))
  | .equal => some (bool (a == b))
  | .notEqual => some (bool (a != b))
  | .less => some (bool (decide (a < b)))
  | .lessEqual => some (bool (decide (a ≤ b)))
  | .greater => some (bool (decide (b < a)))
  | .greaterEqual => some (bool (decide (b ≤ a)))
  | _ => none

/-- Two operands of one kind, or two numbers of which one is a float. -/
def binary? (op : BinaryOp) : Constant → Constant → Option Constant
  | bool a, bool b => boolBinary? op a b
  | int a, int b => intBinary? op a b
  | bool _, _ => none
  | _, bool _ => none
  | a, b => floatBinary? op a.toFloat b.toFloat

/-- The outcome of a short-circuiting operator, when the left operand decides it. -/
def decided? : BinaryOp → Constant → Option Constant
  | .logicalAnd, bool false => some (bool false)
  | .logicalOr, bool true => some (bool true)
  | _, _ => none

end Constant

/-- Evaluation that may have no value, or fail. -/
abbrev Folding := OptionT (Except Fault)

namespace Constant

/-- The functions known to constant expressions. -/
def call (name : String) (args : List Constant) : Folding Constant :=
  match name, args with
  | "min", [int a, int b] => pure (int (if b < a then b else a))
  | "max", [int a, int b] => pure (int (if a < b then b else a))
  | "min", [a, b] => pure (float (Number.Double.min a.toFloat b.toFloat))
  | "max", [a, b] => pure (float (Number.Double.max a.toFloat b.toFloat))
  | "abs", [int a] => pure (int (if a < 0 then -a else a))
  | "abs", [a] => pure (float a.toFloat.abs)
  | "clamp", [int x, int lo, int hi] =>
    if hi < lo then OptionT.lift (.error .emptyClamp)
    else pure (int (if x < lo then lo else if hi < x then hi else x))
  | "clamp", [x, lo, hi] =>
    pure (float (Number.Double.min (Number.Double.max x.toFloat lo.toFloat) hi.toFloat))
  | "select", [f, t, condition] => pure (if condition.toBool then t else f)
  | _, _ => failure

end Constant

namespace Expr

/-- How many levels deep constants and operands may nest. -/
def maxFoldDepth : Nat := 65

/-- The value of an expression whose operands are evaluated by `fold`. -/
def foldStep (constants : Table Expr) (fold : Expr → Folding Constant) : Expr → Folding Constant
  | .literal _ value => pure (Constant.ofLiteral value)
  | .var _ name => do fold (← (constants.find? name).elim failure pure)
  | .group _ inner => fold inner
  | .unary _ op operand => do (Constant.unary? op (← fold operand)).elim failure pure
  | .binary _ op lhs rhs => do
    let a ← fold lhs
    match Constant.decided? op a with
    | some c => pure c
    | none => (Constant.binary? op a (← fold rhs)).elim failure pure
  | .construct _ (.named _ _ name) [arg] => do
    (Constant.convert? name (← fold arg)).elim failure pure
  | .call _ name args => do Constant.call name (← args.mapM fold)
  | _ => failure

/-- The value of an expression at most `depth` levels deep. -/
def foldWithin (constants : Table Expr) : Nat → Expr → Folding Constant
  | 0, _ => failure
  | depth + 1, e => foldStep constants (foldWithin constants depth) e

/-- The value of a constant expression over named constants. -/
def fold (constants : Table Expr) (e : Expr) : Except Fault (Option Constant) :=
  (foldWithin constants maxFoldDepth e).run

/-- The value of a constant expression where a natural number below `2 ^ 32` is wanted. -/
def foldUInt32 (constants : Table Expr) (e : Expr) : Except Fault (Option UInt32) := do
  let c ← fold constants e
  return c.bind Constant.toUInt32?

end Expr

end Wgsl
