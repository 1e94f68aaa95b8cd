import Wgsl.Builtin
import Wgsl.Library
import Wgsl.Machine

/-! # Calls of built-in functions

A call first checks the number of its arguments. Functions of the arguments alone come from the
library; atomics, array lengths and textures read and change the machine.
-/

namespace Wgsl.Eval
set_option autoImplicit false

/-! ## Atomics -/

/-- The place that an argument points to. -/
def pointer (function : String) : Value → Run Place
  | .pointer p => pure p
  | v => throw (.mismatch (function ++ " expects a pointer, found " ++ v.typeName))

/-- What an atomic function makes of the old value and its argument. -/
def atomicUpdate? : String → Option (Value → Value → Run Value)
  | "atomicAdd" => some (Value.binary .add)
  | "atomicSub" => some (Value.binary .subtract)
  | "atomicMax" => some (Library.extreme true)
  | "atomicMin" => some (Library.extreme false)
  | "atomicAnd" => some (Value.binary .bitAnd)
  | "atomicOr" => some (Value.binary .bitOr)
  | "atomicXor" => some (Value.binary .bitXor)
  | "atomicExchange" => some fun _ new => pure new
  | _ => none

/-- Changes a place and gives its old value. -/
def atomic (update : Value → Value → Run Value) (p : Place) (operand : Value) : Eval Value := do
  let old ← readPlace p
  let new ← update old operand
  writePlace p new
  return old

/-- Writes a place if it holds the expected value. -/
def compareExchange (p : Place) (expected new : Value) : Eval Value := do
  let old ← readPlace p
  let exchanged ← (← Value.binary .equal old expected).truth
  if exchanged then writePlace p new
  let kind := old.scalarKind?.getD .u32
  return .struct ("__atomic_compare_exchange_result_" ++ kind.name)
    [("old_value", old), ("exchanged", .bool exchanged)]

/-! ## Textures -/

/-- The texture that an argument names. -/
def texture (v : Value) : Eval Texture := do
  match v with
  | .texture id => (← get).memory.texture id
  | _ => throw (v.expected "a texture")

/-- The sizes of a texture along its coordinates. -/
def dimensions (t : Texture) : Value :=
  if t.dims ≤ 1 then .u32 t.size.x.toUInt32
  else .vector ((t.size.toList.take t.dims).map fun n => .u32 n.toUInt32)

/-- The coordinates of a texel, the layer of an arrayed texture last. Arguments behind them are not
read. -/
def coordinates (t : Texture) (args : List Value) : Run (List Int) := do
  match args with
  | [] => throw (.other "missing texture coordinates")
  | first :: rest =>
    let coords ← first.components.mapM Value.integer
    if t.arrayed then
      match rest with
      | [] => throw (.other "missing array index")
      | layer :: _ => return coords ++ [← layer.integer]
    else return coords

def textureLoad (v : Value) (args : List Value) : Eval Value := do
  let t ← texture v
  t.load (← coordinates t args)

/-- Stores the last argument at the coordinates of the others. -/
def textureStore (v : Value) (args : List Value) : Eval Value := do
  match args.getLast? with
  | none => throw (.other "missing texel")
  | some texel =>
    let coords ← coordinates (← texture v) args.dropLast
    match v with
    | .texture id =>
      ofChange (Machine.onMemory (Memory.onTexture id (Texture.store coords texel)))
      return .void
    | _ => throw (.mismatch ("textureStore expects a texture, found " ++ v.typeName))

/-! ## All functions -/

/-- Functions that read or change the machine. -/
def callMemory (name : String) (args : List Value) : Eval Value := do
  match name, args with
  | "arrayLength", a :: _ =>
    let p ← pointer name a
    let n ← (← get).countAt p
    return .u32 n.toUInt32
  | "atomicLoad", a :: _ => readPlace (← pointer name a)
  | "workgroupUniformLoad", a :: _ => readPlace (← pointer name a)
  | "atomicStore", a :: b :: _ =>
    writePlace (← pointer name a) b
    return .void
  | "atomicCompareExchangeWeak", a :: b :: c :: _ => compareExchange (← pointer name a) b c
  | "textureDimensions", a :: _ => return dimensions (← texture a)
  | "textureNumLayers", a :: _ => return .u32 (max (← texture a).size.z 1).toUInt32
  | "textureLoad", a :: rest => textureLoad a rest
  | "textureStore", a :: rest => textureStore a rest
  | _, a :: b :: _ =>
    match atomicUpdate? name with
    | some update => atomic update (← pointer name a) b
    | none => throw (RunCause.unsupported name).unplaced
  | _, _ => throw (RunCause.unsupported name).unplaced

/-- A call of a built-in function. -/
def callBuiltin (name : String) (args : List Value) : Eval Value := do
  Builtin.checkArity name args.length
  match Library.call? name args with
  | some outcome => outcome
  | none => callMemory name args

end Wgsl.Eval
