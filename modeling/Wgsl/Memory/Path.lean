import Wgsl.Memory

/-! # Paths through buffers

A path of accesses below a view narrows the view step by step. It stops at a swizzle of several
components, which is no view of its own.
-/

namespace Wgsl.Memory
set_option autoImplicit false

/-- Where a path through a buffer ends. -/
inductive Target where
  | view (v : BufferView)
  /-- Several components of a vector, and the accesses behind them. -/
  | swizzle (vector : BufferView) (indices : List Nat) (rest : List Access)

/-- Follows a path from a view. -/
def resolve (m : Memory) : BufferView → List Access → Run Target
  | v, [] => pure (.view v)
  | v, .index i :: rest => do m.resolve (← m.element v i) rest
  | v, .member name :: rest => do
    match ← v.member name with
    | .view next => m.resolve next rest
    | .swizzle vector indices => return .swizzle vector indices rest

/-- The value at the end of a path. -/
def readPath (m : Memory) (v : BufferView) (path : List Access) : Run Value := do
  match ← m.resolve v path with
  | .view v => m.load v
  | .swizzle vector indices rest =>
    let items := (← m.load vector).components
    let picked ← indices.mapM fun i =>
      match items[i]? with
      | some c => pure c
      | none => throw (.mismatch "swizzle out of range")
    (Value.vector picked).atPath rest

/-- The letters of components. -/
def swizzleOf (indices : List Nat) : String :=
  String.ofList (indices.map fun i => ['x', 'y', 'z'].getD i 'w')

/-- Stores a value at the end of a path. A swizzle is stored by loading the vector, assigning to the
components and storing it back. -/
def writePath (v : BufferView) (path : List Access) (new : Value) : Change Memory Unit := do
  let m ← get
  match ← m.resolve v path with
  | .view v => store v new
  | .swizzle vector indices [] =>
    let old ← m.load vector
    match (Value.assignPath [.member (swizzleOf indices)] new).apply old with
    | (.ok _, changed) => store vector changed
    | (.error e, _) => throw e
  | .swizzle _ _ (_ :: _) => throw (.mismatch "cannot assign through a swizzle")

/-- The number of elements of the array at the end of a path. -/
def countAt (m : Memory) (v : BufferView) (path : List Access) : Run Nat := do
  match ← m.resolve v path with
  | .view v =>
    match v.type.shape with
    | .array .. => return m.runtimeCount v
    | _ => throw (.mismatch ("arrayLength of " ++ v.type.name))
  | .swizzle vector _ _ => throw (.mismatch ("arrayLength of " ++ vector.type.name))

end Wgsl.Memory
