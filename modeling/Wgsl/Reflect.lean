import Wgsl.CallGraph
import Wgsl.Layout.Cache
import Wgsl.Layout.Liveness
import Wgsl.Parse.Program

/-! # Reflection

What a module offers to its host: resources with their slots and layouts, overrides, entry points
with their inputs and outputs, the calls and resources of each function, and which functions and
structures are in use.
-/

namespace Wgsl
set_option autoImplicit false

inductive ResourceKind where
  | uniform
  | storage
  | texture
  | storageTexture
  | sampler
  deriving DecidableEq, Repr, Inhabited

inductive Stage where
  | vertex
  | fragment
  | compute
  deriving DecidableEq, Repr, Inhabited

/-- A variable that the host binds to a slot. -/
structure Resource where
  name : String
  type : TypeInfo
  group : Nat
  binding : Nat
  kind : ResourceKind
  access : Option String
  attributes : List Attribute

structure OverrideInfo where
  name : String
  type : Option TypeInfo
  id : Option Nat
  hasDefault : Bool

inductive LocationKind where
  | builtin
  | location
  deriving DecidableEq, Repr, Inhabited

/-- One input or output of an entry point. -/
structure StageVariable where
  name : String
  type : TypeInfo
  kind : LocationKind
  /-- The name of a built-in value, or the number of a location. -/
  location : String

structure FunctionInfo where
  name : String
  stage : Option Stage
  args : List (String × TypeInfo)
  returnType : Option TypeInfo
  inputs : List StageVariable
  outputs : List StageVariable
  /-- The resources that this function or anything it calls mentions. -/
  resources : List String
  /-- The functions it calls directly. -/
  calls : List String
  overrides : List String
  workgroupSize : Option (Nat × Nat × Nat)
  inUse : Bool
  startLine : Nat
  endLine : Nat

structure Reflection where
  structs : List TypeInfo
  aliases : List (String × TypeInfo)
  uniforms : List Resource
  storage : List Resource
  textures : List Resource
  samplers : List Resource
  overrides : List OverrideInfo
  functions : List FunctionInfo
  /-- The types too large to lay out. -/
  layoutErrors : List String
  /-- The structures in use. -/
  live : List StructKey

namespace Reflection

/-- All resources, uniforms first. -/
def resources (r : Reflection) : List Resource :=
  r.uniforms ++ r.storage ++ r.textures ++ r.samplers

/-- The names of the entry points of a stage. -/
def entryPoints (r : Reflection) (stage : Stage) : List String :=
  (r.functions.filter fun f => f.stage = some stage).map FunctionInfo.name

/-- The numbers of the groups, ascending. -/
def groupNumbers (r : Reflection) : List Nat :=
  ((r.resources.map Resource.group).eraseDups).mergeSort fun a b => a ≤ b

/-- The resources by group, those of a group by binding. -/
def bindGroups (r : Reflection) : List (Nat × List Resource) :=
  r.groupNumbers.map fun g =>
    (g, (r.resources.filter fun v => v.group = g).mergeSort fun a b => a.binding ≤ b.binding)

def findResource? (r : Reflection) (group binding : Nat) : Option Resource :=
  r.resources.find? fun v => v.group = group ∧ v.binding = binding

def resourceNamed? (r : Reflection) (name : String) : Option Resource :=
  r.resources.find? fun v => v.name = name

def function? (r : Reflection) (name : String) : Option FunctionInfo :=
  r.functions.find? fun f => f.name = name

def struct? (r : Reflection) (name : String) : Option TypeInfo :=
  r.structs.find? fun t => t.name = name

def entryPoint? (r : Reflection) (name : String) : Option FunctionInfo :=
  (r.function? name).filter fun f => f.stage.isSome

/-- The resources that a function can touch. -/
def functionResources (r : Reflection) (name : String) : List Resource :=
  (r.function? name).elim [] fun f => f.resources.filterMap r.resourceNamed?

/-- Whether a structure is in use. -/
def isInUse (r : Reflection) (key : StructKey) : Bool := r.live.contains key

end Reflection

/-! ## What bodies mention -/

mutual

/-- The names in a type: its own and those of its parameters. -/
def TypeExpr.names : TypeExpr → List String
  | .named _ _ name => [name]
  | .template _ _ name param _ _ => name :: TypeExpr.paramNames param
  | .array _ _ element _ _ => "array" :: TypeExpr.paramNames element

def TypeExpr.paramNames : Option TypeExpr → List String
  | none => []
  | some t => TypeExpr.names t

end

/-- The names that bodies are searched for. -/
structure Watched where
  resources : List String
  overrides : List String
  structs : List String

/-- What a body was found to mention by itself, and the local names that hold at the moment. -/
structure BodyScan where
  resources : List String := []
  overrides : List String := []
  structs : List String := []
  locals : List (List String) := []

namespace BodyScan

/-- Adds the name if it is watched for, once. -/
def note (watched found : List String) (name : String) : List String :=
  if watched.contains name then CallGraph.addOnce found name else found

/-- Whether a local name hides the global one. -/
def isShadowed (s : BodyScan) (name : String) : Bool :=
  s.locals.any fun scope => scope.contains name

/-- One step of the walk through a body. -/
def step (w : Watched) (s : BodyScan) : Mention → BodyScan
  | .enter => { s with locals := [] :: s.locals }
  | .leave => { s with locals := s.locals.tail }
  | .declare name =>
    { s with locals := match s.locals with
        | scope :: outer => (name :: scope) :: outer
        | [] => [] }
  | .type type => { s with structs := type.names.foldl (note w.structs) s.structs }
  | .variable_ name =>
    if s.isShadowed name then s
    else { s with
      resources := note w.resources s.resources name
      overrides := note w.overrides s.overrides name }
  | .call name => { s with structs := note w.structs s.structs name }

/-- What the body of a function mentions. -/
def ofFunction (w : Watched) (f : Function) : BodyScan :=
  f.mentions.foldl (step w) { locals := [f.args.map Field.name] }

end BodyScan

/-! ## Reflecting -/

namespace Reflection

/-- The first argument of an attribute as a number. -/
def number? (attributes : List Attribute) (name : String) : LayoutM (Option Nat) :=
  LayoutM.attributeNumber? attributes name

/-- The kind of resource that a variable at module scope is, if any. -/
def resourceKind? (storage : Option String) (type : TypeInfo) : Option ResourceKind :=
  let begins (text : String) : Bool := text.toList.isPrefixOf type.name.toList
  match storage with
  | some "uniform" => some .uniform
  | some "storage" => some .storage
  | some _ => none
  | none =>
    if begins "texture_storage" then some .storageTexture
    else if type.isTexture then some .texture
    else if begins "sampler" then some .sampler
    else none

/-- The access that a resource allows. -/
def resourceAccess (kind : ResourceKind) (type : TypeInfo) (written : Option String) :
    Option String :=
  match kind with
  | .storage => some (written.getD "read")
  | .storageTexture =>
    match type.shape with
    | .template _ _ access _ => access
    | _ => none
  | _ => written

/-- The resource that a variable at module scope declares, if it is one. -/
def resourceOf (v : VarDecl) : LayoutM (Option Resource) := do
  match v.type with
  | none => return none
  | some t =>
    let type ← LayoutM.typeInfo t
    match resourceKind? v.storage type with
    | none => return none
    | some kind =>
      let group := (← number? v.attributes "group").getD 0
      let binding := (← number? v.attributes "binding").getD 0
      let access := resourceAccess kind type v.access
      return some { name := v.name, type, group, binding, kind, access, attributes := v.attributes }

/-- What an override declares. -/
def overrideOf (v : VarDecl) : LayoutM OverrideInfo := do
  let id ← number? v.attributes "id"
  let type ← v.type.mapM LayoutM.typeInfo
  return { name := v.name, type, id, hasDefault := v.value.isSome }

/-- The stage of a function. -/
def stageOf (f : Function) : Option Stage :=
  if (f.attribute? "compute").isSome then some .compute
  else if (f.attribute? "vertex").isSome then some .vertex
  else if (f.attribute? "fragment").isSome then some .fragment
  else none

/-- The inputs or outputs of one argument or result. A structure contributes those of its members,
at most `depth` structures deep. -/
def stageVariables (p : Program) :
    Nat → String → List Attribute → TypeExpr → LayoutM (List StageVariable)
  | 0, _, _, _ => return []
  | depth + 1, name, attributes, t => do
    let type ← LayoutM.typeInfo t
    match Attribute.find? attributes "builtin", Attribute.find? attributes "location" with
    | some a, _ => return [{ name, type, kind := .builtin, location := a.firstArgText?.getD "" }]
    | none, some a =>
      let number ← number? attributes "location"
      let location := (number.map toString <|> a.firstArgText?).getD ""
      return [{ name, type, kind := .location, location }]
    | none, none =>
      match p.structs.find? fun s => s.name = t.name with
      | none => return []
      | some s =>
        return (← s.members.mapM fun m => stageVariables p depth m.name m.attributes m.type).flatten

/-- The size of a workgroup, if each written dimension folds. -/
def workgroupSize? (a : Attribute) : LayoutM (Option (Nat × Nat × Nat)) := do
  let constants := (← get).constants
  let rec dims : List Expr → Except Fault (Option (List Nat))
    | [] => .ok (some [])
    | e :: r => do
      match ← Expr.foldUInt32 constants e with
      | none => return none
      | some n => return (← dims r).map (n.toNat :: ·)
  let found ← dims (a.args.take 3)
  return found.map fun ds => (ds.getD 0 1, ds.getD 1 1, ds.getD 2 1)

/-- Marks the structures of a type as used. -/
def use (t : TypeInfo) : LayoutM Unit := modify fun l => { l with live := t.markInUse l.live }

/-- Adds names behind those present, each once. -/
def union (names more : List String) : List String := more.foldl CallGraph.addOnce names

/-- Reflects one function over what the bodies of all functions mention. -/
def functionOf (p : Program) (resources : List Resource) (graph : CallGraph)
    (scans : Table BodyScan) (running : List String) (f : Function) : LayoutM FunctionInfo := do
  -- callers before callees, so that a function's own names come first
  let reached := ((graph.transitive f.name).reverse).filterMap scans.find?
  let used := reached.foldl (fun names s => union names s.resources) []
  let overrides := reached.foldl (fun names s => union names s.overrides) []
  let structs := reached.foldl (fun names s => union names s.structs) []
  let stage := stageOf f
  let args ← f.args.mapM fun a => do return (a.name, ← LayoutM.typeInfo a.type)
  let returnType ← f.returnType.mapM LayoutM.typeInfo
  let depth := p.structs.length + 1
  let inputs ← if stage.isSome then
      List.flatten <$> f.args.mapM fun a => stageVariables p depth a.name a.attributes a.type
    else pure []
  let outputs ← match stage, f.returnType with
    | some _, some t => stageVariables p depth "return" f.returnAttributes t
    | _, _ => pure []
  let workgroupSize ← match f.attribute? "workgroup_size" with
    | some a => workgroupSize? a
    | none => pure none
  let inUse := running.contains f.name
  if inUse then
    args.forM fun (_, t) => use t
    returnType.forM use
    structs.forM fun name => do
      if let some t ← LayoutM.structInfo name then use t
    used.forM fun name =>
      match resources.find? fun v => v.name = name with
      | some v => use v.type
      | none => pure ()
  return {
    name := f.name, stage, args, returnType, inputs, outputs, resources := used,
    calls := graph.direct f.name, overrides, workgroupSize, inUse, startLine := f.startLine,
    endLine := f.endLine }

/-- Reflects a module. The memory of layouts is kept between calls. -/
def ofProgram (p : Program) : LayoutM Reflection := do
  let structs ← p.structs.filterMapM fun s => do
    let info ← LayoutM.structInfo s.name
    modify fun l => { l with live := l.live.filter fun key => key ≠ .declared s.name }
    return info
  let aliases ← p.aliases.mapM fun a => do return (a.name, ← LayoutM.typeInfo a.type)
  let found ← p.declarations.mapM fun d => do
    match d with
    | .value .var v => return (← resourceOf v, none)
    | .value .override v => return (none, some (← overrideOf v))
    | _ => return ((none : Option Resource), (none : Option OverrideInfo))
  let bound := found.filterMap Prod.fst
  let overrides := found.filterMap Prod.snd
  let ofKind (kinds : List ResourceKind) := bound.filter fun v => kinds.contains v.kind
  let uniforms := ofKind [.uniform]
  let storage := ofKind [.storage]
  let textures := ofKind [.texture, .storageTexture]
  let samplers := ofKind [.sampler]
  let resources := uniforms ++ storage ++ textures ++ samplers
  let graph := CallGraph.ofProgram p
  let watched : Watched :=
    { resources := resources.map Resource.name
      overrides := overrides.map OverrideInfo.name
      structs := (← get).structs.map Prod.fst }
  let scans := p.functions.foldl
    (fun (t : Table BodyScan) f => t.insert f.name (BodyScan.ofFunction watched f)) []
  let running := graph.reachable p
  let functions ← p.functions.mapM (functionOf p resources graph scans running)
  let l ← get
  return {
    structs, aliases, uniforms, storage, textures, samplers, overrides, functions,
    layoutErrors := l.errors, live := l.live }

end Reflection

/-- Reflects the module that a text spells; a type too large to lay out is a fault. -/
def Reflection.ofSource (source : String) : Except Fault Reflection := do
  let p ← Program.ofSource source
  let (r, _) ← (Reflection.ofProgram p).run (Layouts.ofProgram p)
  match r.layoutErrors with
  | text :: _ => throw (.layout text)
  | [] => return r

end Wgsl
