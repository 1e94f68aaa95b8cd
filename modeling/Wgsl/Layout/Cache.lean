import Wgsl.Const
import Wgsl.Layout.TypeInfo
import Wgsl.Tree.Program

/-! # Layout of a module's types

Alignment, size, member offsets and array strides by the rules of host-shareable types. Each type
node and each structure is laid out once and remembered, so that all uses of a structure share it. A
structure that contains itself is laid out with a handle where it would recur, and what is
remembered on the way depends on which type was asked for first.

`Layouts` is the memory of one module: the types settled so far, the sizes that did not fit, and the
structures known to be in use.
-/

namespace Wgsl
set_option autoImplicit false

/-- The declarations that layouts depend on, and what has been laid out. -/
structure Layouts where
  structs : Table StructDecl
  aliases : Table TypeExpr
  constants : Table Expr
  byNode : List (NodeId × TypeInfo) := []
  byStruct : Table TypeInfo := []
  byName : Table TypeInfo := []
  inProgress : List String := []
  /-- The names of types whose size or offsets do not fit in thirty-two bits. -/
  oversized : List String := []
  /-- The structures known to be in use. -/
  live : List StructKey := []
  deriving Inhabited

namespace Layouts

/-- Nothing is laid out yet; the last declaration of a name counts. -/
def ofProgram (p : Program) : Layouts :=
  p.declarations.foldl (fun (l : Layouts) d =>
    match d with
    | .struct s => { l with structs := l.structs.insert s.name s }
    | .alias_ a => { l with aliases := l.aliases.insert a.name a.type }
    | .value .const v => note l v
    | .value .override v => note l v
    | _ => l) { structs := [], aliases := [], constants := [] }
where
  note (l : Layouts) (v : VarDecl) : Layouts :=
    match v.value with
    | some value => { l with constants := l.constants.insert v.name value }
    | none => l

/-- The wording for a type that does not fit. -/
def oversizedMessage (name : String) : String := "layout of '" ++ name ++ "' exceeds 32-bit sizes"

/-- The messages for all types that do not fit. -/
def errors (l : Layouts) : List String := l.oversized.map oversizedMessage

end Layouts

/-- Laying out reads and extends the memory of a module; only a constant without value can fail. -/
abbrev LayoutM := StateT Layouts (Except Fault)

namespace LayoutM

/-- Notes a type that does not fit, once, and gives the saturated size. -/
def overflow (name : String) : LayoutM Nat := do
  modify fun l =>
    if l.oversized.contains name then l else { l with oversized := l.oversized ++ [name] }
  return saturatedSize

/-- A size, or the saturated one with a note. -/
def sizeOr (name : String) : Option Nat → LayoutM Nat
  | some n => pure n
  | none => overflow name

/-- The first argument of an attribute as a number. -/
def attributeNumber? (attributes : List Attribute) (name : String) : LayoutM (Option Nat) := do
  match (Attribute.find? attributes name).bind fun a => a.args.head? with
  | some arg => return (← Expr.foldUInt32 (← get).constants arg).map UInt32.toNat
  | none => return none

/-- A vector of `length` elements. Three elements are aligned like four. -/
def vectorInfo (base : String) (length : Nat) (element : TypeInfo) : TypeInfo :=
  .mk (base ++ "<" ++ element.name ++ ">") [] (length * element.size % sizeLimit)
    ((if length = 2 then 2 else 4) * element.size % sizeLimit)
    (.template base (some element) none none)

/-- The type with another name and attributes. -/
def renamed (t : TypeInfo) (name : String) (attributes : List Attribute) : TypeInfo :=
  .mk name attributes t.size t.align t.shape

/-- A scalar by name, which a declaration may have taken. -/
def scalarOf (named : String → LayoutM TypeInfo) (kind : ScalarKind) : LayoutM TypeInfo :=
  named kind.name

/-- A generator applied to a settled parameter. -/
def templateInfo (named : String → LayoutM TypeInfo) (text base : String)
    (attributes : List Attribute) (param : Option TypeInfo) (access space : Option String) :
    LayoutM TypeInfo := do
  let component : LayoutM TypeInfo := match param with
    | some t => pure t
    | none => scalarOf named .f32
  match vectorLength? base with
  | some length => return renamed (vectorInfo base length (← component)) text attributes
  | none =>
    match matrixShape? base with
    | some (columns, rows) =>
      let element ← component
      let column := vectorInfo ("vec" ++ toString rows) rows element
      let stride := roundUp column.align column.size
      return .mk text attributes (columns * stride % sizeLimit) column.align
        (.template base (some element) access space)
    | none =>
      let (size, align) := match base, param with
        | "atomic", some inner => (inner.size, inner.align)
        | _, _ => (0, 1)
      return .mk text attributes size align (.template base param access space)

/-- An array of settled elements: its stride is written, or the element's size rounded up to its
alignment. -/
def arrayInfo (text : String) (attributes : List Attribute) (element : TypeInfo)
    (count : Option Nat) : LayoutM TypeInfo := do
  let stride ← match ← attributeNumber? attributes "stride" with
    | some stride => pure stride
    | none => sizeOr text (checkedRoundUp element.align element.size)
  let size ← match count with
    | some n => sizeOr text (checkedSize (n * stride))
    | none => pure 0
  return .mk text attributes size element.align (.array element count stride)

/-- A named type with attributes of its own. A structure gets an identity of its own, in use if
the shared one is. -/
def annotatedInfo (id : NodeId) (attributes : List Attribute) (shared : TypeInfo) :
    LayoutM TypeInfo := do
  match shared.shape with
  | .struct key members startLine endLine =>
    let own := StructKey.annotated id
    modify fun l => if l.live.contains key then { l with live := own :: l.live } else l
    return .mk shared.name attributes shared.size shared.align
      (.struct own members startLine endLine)
  | shape => return .mk shared.name attributes shared.size shared.align shape

/-- What has been remembered for a node, or else the outcome of laying it out, remembered from now
on. -/
def remembering (id : NodeId) (layOut : LayoutM TypeInfo) : LayoutM TypeInfo := do
  match (← get).byNode.lookup id with
  | some info => return info
  | none =>
    let info ← layOut
    modify fun l => { l with byNode := (id, info) :: l.byNode }
    return info

mutual

/-- The layout of a type node, with names laid out by `named`. -/
def typeInfoOf (named : String → LayoutM TypeInfo) : TypeExpr → LayoutM TypeInfo
  | .named id attributes name => remembering id do
    let shared ← named name
    if attributes.isEmpty then return shared else annotatedInfo id attributes shared
  | .array id attributes element count countExpr => remembering id do
    let element' ← match ← paramInfoOf named element with
      | some t => pure t
      | none => scalarOf named .f32
    arrayInfo (TypeExpr.array id attributes element count countExpr).text attributes element'
      (count.map UInt32.toNat)
  | .template id attributes base param access space => remembering id do
    let param' ← paramInfoOf named param
    templateInfo named (TypeExpr.template id attributes base param access space).text base attributes
      param' access space

def paramInfoOf (named : String → LayoutM TypeInfo) : Option TypeExpr → LayoutM (Option TypeInfo)
  | none => pure none
  | some t => do return some (← typeInfoOf named t)

end

/-- The members placed so far. -/
structure Placement where
  members : List MemberInfo := []
  /-- The first free byte. -/
  next : Nat := 0
  align : Nat := 0
  overflowed : Bool := false

/-- Places one more member: at the next multiple of its alignment. Alignment and size are at least
those of its type. Once an offset or end does not fit, the offsets that follow are saturated. -/
def placeMember (p : Placement) (name : String) (type : TypeInfo) (size align : Nat) : Placement :=
  match if p.overflowed then none else checkedRoundUp align p.next with
  | none =>
    { p with
      overflowed := true
      members := .mk name type saturatedSize size align :: p.members }
  | some offset =>
    let members := .mk name type offset size align :: p.members
    let align := max p.align align
    match checkedSize (offset + size) with
    | some next => { members, align, next, overflowed := false }
    | none => { members, align, next := saturatedSize, overflowed := true }

/-- The layout of a structure: its members in order, its size a multiple of its alignment. -/
def structInfoOf (named : String → LayoutM TypeInfo) (decl : StructDecl) : LayoutM TypeInfo := do
  let p ← decl.members.foldlM (fun (p : Placement) (m : Field) => do
    let type ← typeInfoOf named m.type
    let align := max ((← attributeNumber? m.attributes "align").getD 0) type.align
    let size := max ((← attributeNumber? m.attributes "size").getD 0) type.size
    return placeMember p m.name type size align) {}
  let align := max p.align 1
  let size ← sizeOr decl.name (if p.overflowed then none else checkedRoundUp align p.next)
  return .mk decl.name decl.attributes size align
    (.struct (.declared decl.name) p.members.reverse decl.startLine decl.endLine)

/-- The layout of a declared structure. Where the structure is being laid out already, it is a
handle. -/
def structInfoWith (named : String → LayoutM TypeInfo) (name : String) :
    LayoutM (Option TypeInfo) := do
  let l ← get
  match l.byStruct.find? name with
  | some info => return some info
  | none =>
    match l.structs.find? name with
    | none => return none
    | some decl =>
      if l.inProgress.contains name then return some (.handle name)
      set { l with inProgress := name :: l.inProgress }
      let info ← structInfoOf named decl
      modify fun l => { l with
        inProgress := l.inProgress.erase name
        byStruct := l.byStruct.insert name info }
      return some info

/-- The layout of a type known by name: structures first, then aliases, then scalars; any other name
is a handle. At most `depth` structures and aliases are entered. -/
def namedWithin : Nat → String → LayoutM TypeInfo
  | 0, name => return .handle name
  | depth + 1, name => do
    match ← structInfoWith (namedWithin depth) name with
    | some info => return info
    | none =>
      match (← get).aliases.find? name with
      | some target => typeInfoOf (namedWithin depth) target
      | none =>
        match (← get).byName.find? name with
        | some info => return info
        | none =>
          let info := ((ScalarKind.ofName? name).map TypeInfo.scalar).getD (.handle name)
          modify fun l => { l with byName := l.byName.insert name info }
          return info

/-- How deep structures and aliases nest at most: a structure is not entered twice, and between two
structures no alias is entered twice. -/
def nesting : LayoutM Nat := do
  let l ← get
  return (l.structs.length + 1) * (l.aliases.length + 1) + 1

/-- The layout of a type known by name. -/
def named (name : String) : LayoutM TypeInfo := do namedWithin (← nesting) name

/-- The layout of a type node. -/
def typeInfo (type : TypeExpr) : LayoutM TypeInfo := do typeInfoOf (namedWithin (← nesting)) type

/-- The layout of a declared structure. -/
def structInfo (name : String) : LayoutM (Option TypeInfo) := do
  structInfoWith (namedWithin (← nesting)) name

/-- The layout of a scalar. -/
def scalar (kind : ScalarKind) : LayoutM TypeInfo := named kind.name

/-- The layout of a vector that no type node spells. -/
def vector (kind : ScalarKind) (length : Nat) : LayoutM TypeInfo := do
  let base := "vec" ++ toString length
  let name := base ++ "<" ++ kind.name ++ ">"
  match (← get).byName.find? name with
  | some info => return info
  | none =>
    let info := vectorInfo base length (← scalar kind)
    modify fun l => { l with byName := l.byName.insert name info }
    return info

end LayoutM

end Wgsl
