import Wgsl.Library.Numeric

/-! # Geometric functions

Functions of the built-in library on vectors and matrices.
-/

namespace Wgsl.Library
set_option autoImplicit false

open Number (Single)

/-! ## Vectors -/

/-- The sum of the products of components. -/
def dot (a b : Value) : Run Value := do
  match (← Value.binary .multiply a b).components with
  | [] => throw (.mismatch "dot of empty vectors")
  | first :: rest => rest.foldlM (Value.binary .add) first

/-- The length of a vector. -/
def length (v : Value) : Run Single := do
  let xs ← v.numbers
  return sqrt (Value.sum (xs.map fun x => x * x))

/-- The distance of two points. -/
def distance (a b : Value) : Run Single := do length (← Value.binary .subtract a b)

/-- A vector divided by its length. -/
def normalize (v : Value) : Run Value := do
  let n ← length v
  overSingles (· / n) v

/-- The vector product. -/
def cross (a b : Value) : Run Value := do
  match ← a.numbers, ← b.numbers with
  | [ax, ay, az], [bx, by_, bz] =>
    return .ofSingles [ay * bz - az * by_, az * bx - ax * bz, ax * by_ - ay * bx]
  | _, _ => throw (.mismatch "cross expects two 3-component vectors")

/-- A vector thrown back at a surface with the given normal. -/
def reflect (v normal : Value) : Run Value := do
  let d ← (← dot normal v).number
  let scaled ← Value.binary .multiply normal (.f32 (two * d))
  Value.binary .subtract v scaled

/-- A vector turned against the incident one. -/
def faceForward (v incident normal : Value) : Run Value := do
  let d ← (← dot incident normal).number
  if d.lt .zero then return v else Value.unary .negate v

/-- A vector broken at a surface; zero where it is thrown back totally. -/
def refract (v normal : Value) (eta : Single) : Run Value := do
  let d ← (← dot normal v).number
  let k := Single.one - eta * eta * (Single.one - d * d)
  if k.lt .zero then overSingles (fun _ => .zero) v
  else
    let a ← Value.binary .multiply v (.f32 eta)
    let b ← Value.binary .multiply normal (.f32 (eta * d + sqrt k))
    Value.binary .subtract a b

/-! ## Matrices -/

/-- Rows and columns exchanged. -/
def transpose : Value → Run Value
  | .matrix columns => pure (.matrix (Value.rows columns))
  | v => throw (.mismatch ("transpose expects a matrix, found " ++ v.typeName))

/-- An entry of a matrix. -/
def entry (columns : List (List Single)) (c r : Nat) : Single := (columns.getD c []).getD r .zero

/-- The matrix without its first row and one column. -/
def minor (columns : List (List Single)) (c : Nat) : List (List Single) :=
  (columns.eraseIdx c).map fun column => column.drop 1

/-- The determinant of a square matrix of the given size, expanded along its first row. -/
def determinantOf : Nat → List (List Single) → Single
  | 0, _ => .one
  | 1, m => entry m 0 0
  | 2, m => entry m 0 0 * entry m 1 1 - entry m 1 0 * entry m 0 1
  | n + 3, m =>
    Value.sum ((List.range (n + 3)).map fun c =>
      let sign := if c % 2 = 0 then Single.one else -Single.one
      sign * entry m c 0 * determinantOf (n + 2) (minor m c))

def determinant : Value → Run Value
  | .matrix columns =>
    if columns.all fun c => decide (c.length = columns.length) then
      pure (.f32 (determinantOf columns.length columns))
    else throw (.mismatch "determinant expects a square matrix")
  | v => throw (.mismatch ("determinant expects a matrix, found " ++ v.typeName))

end Wgsl.Library
