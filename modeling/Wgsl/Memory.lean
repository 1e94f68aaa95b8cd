import Wgsl.Texture
import Wgsl.Value.Path

/-! # Memory

Buffers and textures that are bound for the length of a run. A view reads the bytes of a buffer as a
value of its type, following the layout of the type, and writes a value back in place.

Loading and storing are recursive in the type. A store that fails leaves the bytes that it has
already written.
-/

namespace Wgsl
set_option autoImplicit false

open Number (Single)

/-! ## Views of parts -/

/-- The elements of a type: the type of each, the bytes from one to the next, and their number. -/
structure Elements where
  type : TypeInfo
  stride : Nat
  count : Nat
  deriving Inhabited

namespace TypeInfo

/-- The type of a column of a matrix. -/
def column (t : TypeInfo) (rows : Nat) : Run TypeInfo :=
  match t.param? with
  | none => throw (.mismatch "matrix without component type")
  | some element =>
    let base := "vec" ++ toString rows
    pure (.mk (base ++ "<" ++ element.name ++ ">") [] (rows * element.size)
      ((if rows = 2 then 2 else 4) * element.size) (.template base (some element) none none))

/-- What a type is indexed into: elements of an array, columns of a matrix or components of a
vector. The columns of a matrix lie one alignment apart. The last argument is the number of
elements of an array that has no count. -/
def elements (t : TypeInfo) (runtimeCount : Nat) : Run Elements :=
  match t.shape with
  | .array element count stride => pure ⟨element, stride, count.getD runtimeCount⟩
  | _ =>
    match t.matrixShape? with
    | some (columns, rows) => do return ⟨← t.column rows, t.align, columns⟩
    | none =>
      match t.vectorLength? with
      | some length =>
        match t.param? with
        | some element => pure ⟨element, element.size, length⟩
        | none => throw (.mismatch "vector without component type")
      | none => throw (.mismatch ("cannot index " ++ t.name))

end TypeInfo

namespace BufferView

/-- The view of a part of another type, some bytes further on. -/
def shifted (v : BufferView) (offset : Nat) (type : TypeInfo) : Run BufferView :=
  match checkedSize (v.offset + offset) with
  | some offset => pure { v with offset, type }
  | none => throw (.other ("offset of " ++ type.name ++ " overflows 32 bits"))

/-- The view of one element. -/
def element (v : BufferView) (i : Int) (runtimeCount : Nat) : Run BufferView := do
  let e ← v.type.elements runtimeCount
  if i < 0 ∨ e.count ≤ i.toNat then throw (RunCause.indexOutOfBounds i e.count).unplaced
  match checkedSize (i.toNat * e.stride) with
  | some offset => v.shifted offset e.type
  | none =>
    throw (.other ("element " ++ toString i ++ " of " ++ v.type.name ++ " overflows 32 bits"))

/-- What a member access on a view gives. -/
inductive Part where
  | view (v : BufferView)
  /-- Several components of a vector. -/
  | swizzle (vector : BufferView) (indices : List Nat)

/-- The components of a vector view that a swizzle selects. -/
def swizzled (v : BufferView) (length : Nat) (swizzle : String) : Run Part :=
  match swizzleIndices? swizzle with
  | none => throw (invalidSwizzle swizzle)
  | some indices =>
    if indices.any fun i => decide (length ≤ i) then throw (invalidSwizzle swizzle)
    else match indices with
      | [i] => .view <$> v.element i 0
      | _ => pure (.swizzle v indices)

/-- The view of a member of a structure, or a swizzle of a vector. -/
def member (v : BufferView) (name : String) : Run Part :=
  match v.type.member? name with
  | some m => .view <$> v.shifted m.offset m.type
  | none =>
    match v.type.vectorLength? with
    | some length => v.swizzled length name
    | none => throw (.mismatch (v.type.name ++ " has no member '" ++ name ++ "'"))

end BufferView

/-! ## Scalars as bytes -/

namespace ScalarKind

/-- The scalar that some bytes spell. -/
def decode (kind : ScalarKind) (bytes : List UInt8) : Value :=
  match kind with
  | bool => .bool (Bytes.toUInt32 bytes != 0)
  | i32 => .i32 (Bytes.toUInt32 bytes).toInt32
  | u32 => .u32 (Bytes.toUInt32 bytes)
  | f32 => .f32 ⟨Bytes.toUInt32 bytes⟩
  | f16 => .f32 (Number.Half.toSingle (Bytes.toUInt16 bytes))

/-- The bytes of a scalar, converted to the kind. -/
def encode (kind : ScalarKind) (v : Value) : Run (List UInt8) :=
  match kind with
  | bool => (fun b => Bytes.ofUInt32 (if b then 1 else 0)) <$> v.truth
  | i32 => (fun n => Bytes.ofUInt32 n.toUInt32) <$> v.signed
  | u32 => Bytes.ofUInt32 <$> v.unsigned
  | f32 => (fun x => Bytes.ofUInt32 x.bits) <$> v.number
  | f16 => (fun x => Bytes.ofUInt16 (Number.Half.ofSingle x)) <$> v.number

end ScalarKind

/-! ## Memory -/

/-- The buffers and textures that are bound. -/
structure Memory where
  buffers : Array (Array UInt8) := #[]
  textures : Array Texture := #[]
  deriving Inhabited

namespace Memory

/-- Nothing is bound. -/
def empty : Memory := {}

def addBuffer (m : Memory) (bytes : Array UInt8) : Memory × BufferId :=
  ({ m with buffers := m.buffers.push bytes }, m.buffers.size)

def addTexture (m : Memory) (t : Texture) : Memory × TextureId :=
  ({ m with textures := m.textures.push t }, m.textures.size)

/-- The error for a texture that is not there. -/
def unboundTexture (id : TextureId) : RunError :=
  .other ("texture #" ++ toString id ++ " is not bound")

def texture (m : Memory) (id : TextureId) : Run Texture :=
  match m.textures[id]? with
  | some t => pure t
  | none => throw (unboundTexture id)

/-- Changes one texture. -/
def onTexture (id : TextureId) (c : Change Texture Unit) : Change Memory Unit := do
  let m ← get
  let t ← m.texture id
  Change.onPart t (fun t => { m with textures := m.textures.setIfInBounds id t }) c

/-- The number of elements of an array: its count, or as many strides as the buffer has room for. The
bytes of a buffer are counted in thirty-two bits. -/
def runtimeCount (m : Memory) (v : BufferView) : Nat :=
  match v.type.shape with
  | .array _ (some count) _ => count
  | .array _ none stride =>
    let length := ((m.buffers[v.buffer]?).map Array.size).getD 0 % sizeLimit
    (length - v.offset) / stride
  | _ => 0

/-- The view of one element, the number of elements taken from the buffer where the type has
none. -/
def element (m : Memory) (v : BufferView) (i : Int) : Run BufferView :=
  v.element i (m.runtimeCount v)

/-- The error for bytes that lie outside a buffer. -/
def outside (start length : Nat) : RunError := (RunCause.indexOutOfBounds start length).unplaced

/-- Accepts a run of bytes that lies inside a buffer. -/
def checkRange (m : Memory) (buffer : BufferId) (start count : Nat) : Run Unit :=
  match m.buffers[buffer]? with
  | none => throw (.other "buffer is not bound")
  | some data => if start + count ≤ data.size then pure () else throw (outside start data.size)

/-! ## Loading -/

def loadScalar (m : Memory) (kind : ScalarKind) (buffer : BufferId) (start : Nat) : Run Value := do
  m.checkRange buffer start kind.size
  let data := (m.buffers[buffer]?).getD #[]
  return kind.decode ((Bytes.read? data start kind.size).getD [])

/-- The error for a type that has no bytes. -/
def unreadable (t : TypeInfo) : RunError :=
  .mismatch (t.name ++ " cannot be read from a buffer")

mutual

/-- The value of a type at an offset of a buffer. -/
def loadAt (m : Memory) (buffer : BufferId) : TypeInfo → Nat → Run Value
  | .mk name attributes size align shape, offset =>
    loadShape m ⟨buffer, offset, .mk name attributes size align shape⟩ shape

/-- The value that a view shows, by the shape of its type. -/
def loadShape (m : Memory) (v : BufferView) : TypeShape → Run Value
  | .scalar kind => m.loadScalar kind v.buffer v.offset
  | .handle => throw (unreadable v.type)
  | .array element _ _ =>
    let count := m.runtimeCount v
    .array <$> Run.values count fun (i : Nat) => do
      loadAt m v.buffer element (← v.element i count).offset
  | .struct _ members _ _ => .struct v.type.name <$> loadMembers m v members
  | .template base param _ _ =>
    match matrixShape? base with
    | some (columns, rows) =>
      .matrix <$> Run.values columns fun (c : Nat) => do
        let items ← loadComponents m rows (← v.element c 0) param
        items.mapM Value.number
    | none =>
      match vectorLength? base with
      | some length => .vector <$> loadComponents m length v param
      | none =>
        if base = "atomic" then
          m.loadScalar ((TypeInfo.paramScalarKind? param).getD .f32) v.buffer v.offset
        else throw (unreadable v.type)

/-- The components of a vector view. -/
def loadComponents (m : Memory) (length : Nat) (v : BufferView) :
    Option TypeInfo → Run (List Value)
  | none => Run.values length fun (i : Nat) => do throw (unreadable (← v.element i 0).type)
  | some element =>
    Run.values length fun (i : Nat) => do loadAt m v.buffer element (← v.element i 0).offset

/-- The members of a structure view. -/
def loadMembers (m : Memory) (v : BufferView) : List MemberInfo → Run (List (String × Value))
  | [] => pure []
  | .mk name type offset _ _ :: rest => do
    let value ← loadAt m v.buffer type (← v.shifted offset type).offset
    return (name, value) :: (← loadMembers m v rest)

end

/-- The value that a view shows. -/
def load (m : Memory) (v : BufferView) : Run Value := m.loadAt v.buffer v.type v.offset

/-! ## Storing -/

/-- Writes bytes into a buffer. -/
def write (buffer : BufferId) (start : Nat) (bytes : List UInt8) (m : Memory) : Memory :=
  { m with buffers := m.buffers.modify buffer fun data => Bytes.write data start bytes }

def storeScalar (kind : ScalarKind) (buffer : BufferId) (start : Nat) (value : Value) :
    Change Memory Unit := do
  (← get).checkRange buffer start kind.size
  let bytes ← kind.encode value
  modify (write buffer start bytes)

/-- The error for a value that does not go with a type. -/
def unstorable (value : Value) (t : TypeInfo) : RunError :=
  .mismatch ("cannot store " ++ value.typeName ++ " into " ++ t.name)

/-- The values that go into the columns of a matrix or the components of a vector; a scalar goes
into each. -/
def spread (count : Nat) (t : TypeInfo) (value : Value) : Run (List Value) := do
  let parts ← match value with
    | .matrix columns => pure (columns.map Value.ofSingles)
    | .vector items => pure items
    | v => if v.isScalar then pure (List.replicate count v) else throw (unstorable v t)
  if parts.length = count then return parts
  else throw (RunCause.vectorLength count parts.length).unplaced

mutual

/-- Stores a value as a type at an offset of a buffer. -/
def storeAt (buffer : BufferId) : TypeInfo → Nat → Value → Change Memory Unit
  | .mk name attributes size align shape, offset, value =>
    storeShape ⟨buffer, offset, .mk name attributes size align shape⟩ shape value

/-- Stores a value through a view, by the shape of its type. -/
def storeShape (v : BufferView) : TypeShape → Value → Change Memory Unit
  | .scalar kind, value => storeScalar kind v.buffer v.offset value
  | .handle, value => throw (unstorable value v.type)
  | .array element _ _, value =>
    match value with
    | .array items => do
      let count := min ((← get).runtimeCount v) items.length
      ((items.take count).zipIdx).forM fun (item, i) => do
        storeAt v.buffer element (← v.element i count).offset item
    | _ => throw (unstorable value v.type)
  | .struct _ members _ _, value =>
    match value with
    | .struct _ fields => storeMembers v fields members
    | _ => throw (unstorable value v.type)
  | .template base param _ _, value =>
    match matrixShape? base with
    | some (columns, rows) => do
      let parts ← spread columns v.type value
      parts.zipIdx.forM fun (part, c) => do
        storeComponents rows (← v.element c 0) param part
    | none =>
      match vectorLength? base with
      | some length => storeComponents length v param value
      | none =>
        if base = "atomic" then
          storeScalar ((TypeInfo.paramScalarKind? param).getD .f32) v.buffer v.offset value
        else throw (unstorable value v.type)

/-- Stores the components of a vector. -/
def storeComponents (length : Nat) (v : BufferView) : Option TypeInfo → Value → Change Memory Unit
  | none, value => do
    let parts ← spread length v.type value
    parts.zipIdx.forM fun (part, i) => do throw (unstorable part (← v.element i 0).type)
  | some element, value => do
    let parts ← spread length v.type value
    parts.zipIdx.forM fun (part, i) => do
      storeAt v.buffer element (← v.element i 0).offset part

/-- Stores the fields of a structure into the members of the same names. -/
def storeMembers (v : BufferView) (fields : List (String × Value)) :
    List MemberInfo → Change Memory Unit
  | [] => pure ()
  | .mk name type offset _ _ :: rest => do
    match Table.find? fields name with
    | some value => storeAt v.buffer type (← v.shifted offset type).offset value
    | none => pure ()
    storeMembers v fields rest

end

/-- Stores a value through a view. -/
def store (v : BufferView) (value : Value) : Change Memory Unit :=
  storeAt v.buffer v.type v.offset value

end Memory

end Wgsl
