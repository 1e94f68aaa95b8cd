import Wgsl.Change
import Wgsl.Value.Convert

/-! # Parts of values

Reading and assigning parts of a value along a path of accesses. Reading takes members, swizzles,
elements and columns; assigning goes through members, single components and elements, and ends in a
swizzle, a column or one part. An assigned part keeps its kind.
-/

namespace Wgsl
set_option autoImplicit false

open Number (Single)

/-! ## Swizzles -/

/-- The two sets of component letters. -/
def componentLetters : List (List Char) := [['x', 'y', 'z', 'w'], ['r', 'g', 'b', 'a']]

/-- The components that a swizzle selects: one to four letters of one set. -/
def swizzleIndices? (swizzle : String) : Option (List Nat) :=
  let letters := swizzle.toList
  if letters.isEmpty || 4 < letters.length then none
  else componentLetters.findSome? fun set => letters.mapM fun c => set.idxOf? c

/-- The error for a swizzle that selects nothing. -/
def invalidSwizzle (swizzle : String) : RunError := (RunCause.invalidSwizzle swizzle).unplaced

namespace Value

/-- One element by its number, if there is one. -/
def element {α : Type} (items : List α) (i : Int) : Run α :=
  match if i < 0 then none else items[i.toNat]? with
  | some v => pure v
  | none => throw (RunCause.indexOutOfBounds i items.length).unplaced

/-- The components that a swizzle selects; a single letter gives the component itself. -/
def pick (swizzle : String) (items : List Value) : Run Value :=
  match swizzleIndices? swizzle with
  | none => throw (invalidSwizzle swizzle)
  | some indices => do
    let picked ← indices.mapM fun i =>
      match items[i]? with
      | some v => pure v
      | none => throw (invalidSwizzle swizzle)
    match picked with
    | [v] => return v
    | _ => return vector picked

/-- The error for a member that a structure does not have. -/
def noMember (name member : String) : RunError :=
  .mismatch ("struct " ++ name ++ " has no member '" ++ member ++ "'")

/-! ## Reading -/

/-- The part of a value that one access selects. -/
def part : Value → Access → Run Value
  | struct name fields, .member m =>
    match Table.find? fields m with
    | some v => pure v
    | none => throw (noMember name m)
  | vector items, .member swizzle => pick swizzle items
  | vector items, .index i => element items i
  | array items, .index i => element items i
  | matrix columns, .index i => ofSingles <$> element columns i
  | v, a => throw (.mismatch ("cannot access " ++ a.text ++ " on " ++ v.typeName))

/-- The part of a value that a path selects. -/
def atPath (v : Value) (path : List Access) : Run Value := path.foldlM part v

/-! ## Assigning -/

/-- The part of a value that one access selects for assignment. -/
def slot : Value → Access → Run Value
  | struct name fields, .member m =>
    match Table.find? fields m with
    | some v => pure v
    | none => throw (noMember name m)
  | vector items, .member swizzle =>
    match swizzleIndices? swizzle with
    | some [i] =>
      match items[i]? with
      | some v => pure v
      | none => throw (invalidSwizzle swizzle)
    | _ => throw (invalidSwizzle swizzle)
  | vector items, .index i => element items i
  | array items, .index i => element items i
  | v, a => throw (.mismatch ("cannot assign through " ++ a.text ++ " on " ++ v.typeName))

/-- The value with another part in the slot of an access. -/
def withSlot (v : Value) (a : Access) (new : Value) : Value :=
  match v, a with
  | struct name fields, .member m => struct name (Table.insert fields m new)
  | vector items, .member swizzle =>
    match swizzleIndices? swizzle with
    | some [i] => vector (items.set i new)
    | _ => v
  | vector items, .index i => vector (items.set i.toNat new)
  | array items, .index i => array (items.set i.toNat new)
  | _, _ => v

/-- Replaces the whole value, keeping its kind. -/
def replace (new : Value) : Change Value Unit := do
  set (← coerceLike (← get) new)

/-- Changes the part in the slot of an access. -/
def within (a : Access) (c : Change Value Unit) : Change Value Unit := do
  let v ← get
  let old ← v.slot a
  Change.onPart old (v.withSlot a) c

/-- Assigns to one component after another. -/
def assignEach (swizzle : String) : List (Nat × Value) → Change (List Value) Unit
  | [] => pure ()
  | (i, new) :: rest => do
    let items ← get
    match items[i]? with
    | none => throw (invalidSwizzle swizzle)
    | some old =>
      let new ← coerceLike old new
      set (items.set i new)
      assignEach swizzle rest

/-- Assigns to the components that a swizzle selects, as many as the new value has. -/
def assignSwizzle (swizzle : String) (new : Value) : Change (List Value) Unit :=
  match swizzleIndices? swizzle with
  | none => throw (invalidSwizzle swizzle)
  | some indices =>
    let parts := new.components
    if parts.length = indices.length then assignEach swizzle (indices.zip parts)
    else throw (RunCause.vectorLength indices.length parts.length).unplaced

/-- Assigns to a column of a matrix. -/
def assignColumn (i : Int) (new : Value) : Change (List (List Single)) Unit := do
  let columns ← get
  let old ← element columns i
  let column ← new.numbers
  if column.length = old.length then set (columns.set i.toNat column)
  else throw (RunCause.vectorLength old.length column.length).unplaced

/-- Assigns to the part that one access selects. -/
def assignPart (a : Access) (new : Value) : Change Value Unit := do
  match ← get, a with
  | vector items, .member swizzle => Change.onPart items vector (assignSwizzle swizzle new)
  | matrix columns, .index i => Change.onPart columns matrix (assignColumn i new)
  | _, _ => within a (replace new)

/-- Assigns to the part that a path selects. -/
def assignPath : List Access → Value → Change Value Unit
  | [], new => replace new
  | [a], new => assignPart a new
  | a :: rest, new => within a (assignPath rest new)

end Value

end Wgsl
