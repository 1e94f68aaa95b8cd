import Wgsl.Layout.TypeInfo
import Wgsl.Number.Half
import Wgsl.Scope
import Wgsl.Fault
import Wgsl.Text.Quoted

/-! # Values

What a running shader computes with. A `Value` is dynamic: nothing checks types ahead of a run, so
every operation says what it does on a value of the wrong kind. Half-precision values are held as
singles.

A `Place` is a location that can be assigned to: a variable of a scope or a view of a buffer, and a
path of accesses below it.
-/

namespace Wgsl
set_option autoImplicit false

open Number (Single)

/-! ## Places -/

/-- One step from a value to a part of it. -/
inductive Access where
  | index (i : Int)
  /-- A member of a structure, or a swizzle of a vector. -/
  | member (name : String)
  deriving DecidableEq, Repr, Inhabited

/-- How an access is shown in messages. -/
def Access.text : Access → String
  | index i => "Index(" ++ toString i ++ ")"
  | member name => "Member(" ++ Text.quoted name ++ ")"

/-- The number of a buffer in memory. -/
abbrev BufferId := Nat

/-- The number of a texture in memory. -/
abbrev TextureId := Nat

/-- Bytes of a buffer, from an offset on, read as a value of a type. -/
structure BufferView where
  buffer : BufferId
  offset : Nat
  type : TypeInfo
  deriving Inhabited

/-- Where a place starts. -/
inductive PlaceRoot where
  | variable_ (scope : ScopeId) (name : String)
  | buffer (view : BufferView)
  deriving Inhabited

/-- A location that can be assigned to. -/
structure Place where
  root : PlaceRoot
  path : List Access
  deriving Inhabited

namespace Place

/-- A variable of a scope. -/
def ofVariable (scope : ScopeId) (name : String) : Place := ⟨.variable_ scope name, []⟩

/-- A whole view. -/
def ofView (view : BufferView) : Place := ⟨.buffer view, []⟩

/-- One access further down. -/
def below (p : Place) (a : Access) : Place := { p with path := p.path ++ [a] }

end Place

/-! ## Values -/

/-- A runtime value. -/
inductive Value where
  /-- What a call that returns nothing gives, and what stands for a value that could not be
  computed. -/
  | void
  | bool (b : Bool)
  | i32 (n : Int32)
  | u32 (n : UInt32)
  | f32 (x : Single)
  | vector (items : List Value)
  /-- A matrix, column by column. -/
  | matrix (columns : List (List Single))
  | array (items : List Value)
  | struct (name : String) (fields : List (String × Value))
  | pointer (place : Place)
  | texture (id : TextureId)
  | sampler
  deriving Inhabited

/-- What a name is bound to: a value of its own, or a view of a buffer. -/
inductive Slot where
  | value (v : Value)
  | view (v : BufferView)
  deriving Inhabited

namespace Value

/-- The vector of a list of numbers. -/
def ofSingles (xs : List Single) : Value := vector (xs.map f32)

/-! ## Names and texts -/

/-- The number of rows of a matrix. -/
def rowCount (columns : List (List Single)) : Nat := (columns.head?.map List.length).getD 0

mutual

/-- The name of a value's type. Vectors and arrays take the type of their first element. -/
def typeName : Value → String
  | void => "void"
  | bool _ => "bool"
  | i32 _ => "i32"
  | u32 _ => "u32"
  | f32 _ => "f32"
  | vector items => "vec" ++ toString items.length ++ "<" ++ firstTypeName "f32" items ++ ">"
  | matrix columns =>
    "mat" ++ toString columns.length ++ "x" ++ toString (rowCount columns) ++ "<f32>"
  | array items => "array<" ++ firstTypeName "?" items ++ ", " ++ toString items.length ++ ">"
  | struct name _ => name
  | pointer _ => "ptr"
  | texture _ => "texture"
  | sampler => "sampler"

/-- The type of the first element, or what stands for it when there is none. -/
def firstTypeName (missing : String) : List Value → String
  | [] => missing
  | v :: _ => typeName v

end

/-- Texts between square brackets. -/
def bracketed (texts : List String) : String := "[" ++ ", ".intercalate texts ++ "]"

mutual

/-- The text of a value. -/
def text : Value → String
  | void => "void"
  | bool b => if b then "true" else "false"
  | i32 n => toString n.toInt
  | u32 n => toString n.toNat ++ "u"
  | f32 x => x.spell
  | vector items => bracketed (texts items)
  | matrix columns => bracketed (columns.map fun c => bracketed (c.map Single.spell))
  | array items => bracketed (texts items)
  | struct name fields => name ++ " \x7b " ++ ", ".intercalate (fieldTexts fields) ++ " \x7d"
  | pointer _ => "ptr"
  | texture id => "texture#" ++ toString id
  | sampler => "sampler"

def texts : List Value → List String
  | [] => []
  | v :: r => text v :: texts r

def fieldTexts : List (String × Value) → List String
  | [] => []
  | (name, v) :: r => (name ++ ": " ++ text v) :: fieldTexts r

end

/-! ## Kinds -/

mutual

/-- The kind of a scalar or of the components of a vector or matrix. -/
def scalarKind? : Value → Option ScalarKind
  | bool _ => some .bool
  | i32 _ => some .i32
  | u32 _ => some .u32
  | f32 _ => some .f32
  | vector items => firstScalarKind? items
  | matrix _ => some .f32
  | _ => none

def firstScalarKind? : List Value → Option ScalarKind
  | [] => none
  | v :: _ => scalarKind? v

end

def isScalar : Value → Bool
  | bool _ | i32 _ | u32 _ | f32 _ => true
  | _ => false

/-- The number of components of a vector. -/
def vectorLength? : Value → Option Nat
  | vector items => some items.length
  | _ => none

/-- The components of a vector, all numbers of a matrix column by column, or the value itself. -/
def components : Value → List Value
  | vector items => items
  | matrix columns => columns.flatten.map f32
  | v => [v]

/-- Applies a function to every component of a vector, or to the value itself. -/
def mapComponents (f : Value → Run Value) : Value → Run Value
  | vector items => vector <$> items.mapM f
  | v => f v

end Value

end Wgsl
