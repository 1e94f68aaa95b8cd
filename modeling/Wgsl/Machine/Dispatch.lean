import Wgsl.Machine.Module

/-! # Dispatches

A dispatch runs an entry point over a grid of workgroups. It starts the module, settles the size of
a workgroup, moves the host's resources into memory, runs the invocations one after another and
hands the resources back. If it cannot start, the resources stay as they are.
-/

namespace Wgsl
set_option autoImplicit false

/-- A dispatch that can start. -/
structure DispatchPlan where
  entry : Function
  workgroups : Extent
  workgroupSize : Extent
  deriving Inhabited

namespace DispatchPlan

/-- Counts are kept in words of 64 bits. -/
def countLimit : Nat := UInt64.size

def invocationsPerWorkgroup (p : DispatchPlan) : Nat := p.workgroupSize.volume % countLimit

def invocationCount (p : DispatchPlan) : Nat :=
  p.workgroups.volume * p.invocationsPerWorkgroup % countLimit

end DispatchPlan

/-- The position with a number in a grid, counted along x first. -/
def Extent.position (e : Extent) (n : Nat) : Extent :=
  ⟨n % e.x, n / e.x % e.y, n / (e.x * e.y)⟩

/-- Three sizes as a vector. -/
def Extent.value (e : Extent) : Value := .vector (e.toList.map fun n => .u32 n.toUInt32)

/-- Where one invocation stands in the grid. -/
structure Invocation where
  workgroup : Extent
  localPosition : Extent
  globalPosition : Extent
  localIndex : Nat
  deriving DecidableEq, Repr, Inhabited

/-- The invocation with a number: workgroup after workgroup. -/
def DispatchPlan.invocation (p : DispatchPlan) (index : Nat) : Invocation :=
  let perGroup := p.invocationsPerWorkgroup
  let localIndex := index % perGroup
  let w := p.workgroups.position (index / perGroup)
  let l := p.workgroupSize.position localIndex
  let size := p.workgroupSize
  {
    workgroup := w
    localPosition := l
    globalPosition := ⟨w.x * size.x + l.x, w.y * size.y + l.y, w.z * size.z + l.z⟩
    localIndex }

/-- The built-in values of an invocation by name. The sign in front keeps them apart from the names
of a program. -/
def Invocation.builtins (i : Invocation) (workgroups : Extent) : List (String × Value) := [
  ("@workgroup_id", i.workgroup.value),
  ("@local_invocation_id", i.localPosition.value),
  ("@global_invocation_id", i.globalPosition.value),
  ("@local_invocation_index", .u32 i.localIndex.toUInt32),
  ("@num_workgroups", workgroups.value)]

/-! ## Binding resources -/

namespace Machine

/-- Remembers where a bound resource came from. -/
def noteBound (m : Machine) (b : Bound) : Machine := { m with bound := m.bound ++ [b] }

/-- Moves the resource of a variable's slot into memory. A resource of another kind stays with the
host; a sampler variable needs none. -/
def bindResource (r : Resource) (m : Machine) (g : BindGroups) : Machine × BindGroups :=
  let slot : BindSlot := ⟨r.group, r.binding⟩
  let rest := g.erase slot
  let bindBuffer (bytes : Array UInt8) (uniform : Bool) : Machine × BindGroups :=
    let (memory, id) := m.memory.addBuffer bytes
    (({ m with memory }.noteBound (.buffer slot id uniform)).bind ScopeArena.root r.name
      (.view ⟨id, 0, r.type⟩), rest)
  let bindTexture (t : Texture) : Machine × BindGroups :=
    let (memory, id) := m.memory.addTexture (t.withView r.type.name)
    (({ m with memory }.noteBound (.texture slot id)).bind ScopeArena.root r.name
      (.value (.texture id)), rest)
  match r.kind, g.find? slot with
  | .uniform, some (.uniform bytes) => bindBuffer bytes true
  | .uniform, some (.storage bytes) => bindBuffer bytes false
  | .storage, some (.uniform bytes) => bindBuffer bytes true
  | .storage, some (.storage bytes) => bindBuffer bytes false
  | .texture, some (.texture data size format) => bindTexture { data, size, format }
  | .storageTexture, some (.texture data size format) => bindTexture { data, size, format }
  | .sampler, some _ =>
    ((m.noteBound (.sampler slot)).bind ScopeArena.root r.name (.value .sampler), rest)
  | .sampler, none => (m.bind ScopeArena.root r.name (.value .sampler), g)
  | _, _ => (m, g)

/-- Moves the resources of all variables into memory, one after another. -/
def bindResources (resources : List Resource) (m : Machine) (g : BindGroups) :
    Machine × BindGroups :=
  resources.foldl (fun (m, g) r => m.bindResource r g) (m, g)

/-- What the host gets back for a bound resource. -/
def released (m : Machine) : Bound → Option (BindSlot × HostResource)
  | .buffer slot id uniform =>
    let bytes := (m.memory.buffers[id]?).getD #[]
    some (slot, if uniform then .uniform bytes else .storage bytes)
  | .texture slot id =>
    (m.memory.textures[id]?).map fun t => (slot, .texture t.data t.size t.format)
  | .sampler slot => some (slot, .sampler)

/-- The host's resources after a run, in their slots again. -/
def handBack (m : Machine) (g : BindGroups) : BindGroups :=
  (m.bound.filterMap m.released).foldl (fun g (slot, r) => g.insert slot r) g

/-- Memory without anything bound. -/
def unbound (m : Machine) : Machine := { m with memory := .empty, bound := [] }

end Machine

/-! ## Preparing -/

/-- A computation on the machine that may refuse; what it did before stays. -/
abbrev Attempt := ExceptT Fault Exec

namespace Attempt

variable {α : Type}

/-- A computation that does not refuse. -/
def ofExec (x : Exec α) : Attempt α := ExceptT.lift x

/-- Refuses a dispatch. -/
def refuse (cause : DispatchCause) : Attempt α := throw (.dispatch cause)

/-- One size of a workgroup, evaluated now so that overrides apply. -/
def workgroupAxis (s : Shader) (e : Expr) : Attempt Nat := do
  let size : Eval UInt32 := do (← Eval.expr s (Eval.call s) ScopeArena.root e).unsigned
  match ← ofExec size.run with
  | .ok n => return n.toNat
  | .error reason => refuse (.badWorkgroupSize reason)

/-- The size of a workgroup; missing sizes are one. -/
def workgroupSize (s : Shader) (f : Function) : Attempt Extent := do
  match f.attribute? "workgroup_size" with
  | none => refuse (.noWorkgroupSize f.name)
  | some a =>
    match ← (a.args.take 3).mapM (workgroupAxis s) with
    | [x, y, z] => return ⟨x, y, z⟩
    | [x, y] => return ⟨x, y, 1⟩
    | [x] => return ⟨x, 1, 1⟩
    | _ => return ⟨1, 1, 1⟩

/-- Gets a dispatch ready: starts the module, settles the workgroup and binds the resources. Gives
the plan and what is left with the host. -/
def prepare (s : Shader) (entry : String) (workgroups : Extent) (g : BindGroups) (config : Config) :
    Attempt (DispatchPlan × BindGroups) := do
  match s.reflection.layoutErrors.head? with
  | some message => throw (.layout message)
  | none => pure ()
  ofExec (Exec.start s config)
  match s.function? entry with
  | none => refuse (.entryNotFound entry)
  | some f =>
    let size ← workgroupSize s f
    if size.toList.contains 0 then refuse (.zeroWorkgroupSize entry)
    let rest ← ofExec (modifyGet fun m =>
      let (m, rest) := m.bindResources s.reflection.resources g
      (rest, m))
    return (⟨f, workgroups, size⟩, rest)

end Attempt

/-! ## Invocations -/

namespace Eval

/-- A built-in value of the invocation. -/
def builtinValue (scope : ScopeId) (name : String) : Eval Value := do
  match (← get).scopes.findIn? scope ("@" ++ name) with
  | some (.value v) => return v
  | _ => throw (RunCause.unsupported ("@builtin(" ++ name ++ ")")).unplaced

/-- The value of an argument of an entry point: a built-in value, a structure of such arguments, or
zero. The number bounds how deep structures nest. -/
def argument (s : Shader) (scope : ScopeId) : Nat → List Attribute → TypeExpr → Eval Value
  | 0, _, _ => return .void
  | depth + 1, attributes, type => do
    let t ← typeInfo type
    match (Attribute.find? attributes "builtin").bind Attribute.firstArgText? with
    | some name => (← builtinValue scope name).coerceTo t
    | none =>
      match s.program.structs.find? fun d => d.name = t.name with
      | some d =>
        let fields ← d.members.mapM fun m => do
          return (m.name, ← argument s scope depth m.attributes m.type)
        return .struct t.name fields
      | none => return .zeroOf t

end Eval

namespace Exec

/-- Gives private variables their initial values again, and workgroup variables too where a
workgroup begins. -/
def resetVariables (s : Shader) (newWorkgroup : Bool) : Exec Unit := do
  let vars := (← get).moduleVars.filter fun v => newWorkgroup || v.storage != some "workgroup"
  vars.forM fun v => reporting v.line (Eval.declare s (Eval.call s) ScopeArena.root v)

/-- Binds an argument of an entry point. -/
def bindArgument (s : Shader) (entry : Function) (scope : ScopeId) (arg : Field) : Exec Unit := do
  let depth := s.program.structs.length + 1
  match ← (Eval.argument s scope depth arg.attributes arg.type).run with
  | .ok v => bind scope arg.name (.value v)
  | .error e =>
    report (e.at_ entry.startLine)
    bind scope arg.name (.value .void)

/-- Sets up an invocation and gives the scope that its body runs in. -/
def beginInvocation (s : Shader) (plan : DispatchPlan) (index : Nat) : Exec ScopeId := do
  let i := plan.invocation index
  resetVariables s (i.localIndex = 0)
  modify fun m => { m with discarded := false }
  let scope ← pushScope ScopeArena.root
  (i.builtins plan.workgroups).forM fun (name, v) => bind scope name (.value v)
  plan.entry.args.forM (bindArgument s plan.entry scope)
  return scope

/-- Closes the scope of an invocation. -/
def endInvocation (scope : ScopeId) : Exec Unit := do
  popScope scope
  modify fun m => { m with callResults := [] }

/-- Runs one invocation. -/
def runInvocation (s : Shader) (plan : DispatchPlan) (index : Nat) : Exec Unit := do
  let scope ← beginInvocation s plan index
  let _ ← Eval.stmts s (Eval.call s) scope plan.entry.body
  endInvocation scope

/-- Runs the given number of invocations from a number on. -/
def runInvocations (s : Shader) (plan : DispatchPlan) : Nat → Nat → Exec Unit
  | 0, _ => return ()
  | count + 1, index => do
    runInvocation s plan index
    runInvocations s plan count (index + 1)

/-- Hands the resources back to the host. -/
def finish (g : BindGroups) : Exec BindGroups :=
  modifyGet fun m => (m.handBack g, m.unbound)

end Exec

/-- Runs an entry point over a grid of workgroups and gives the host's resources afterwards. -/
def Attempt.dispatch (s : Shader) (entry : String) (workgroups : Extent) (g : BindGroups)
    (config : Config) : Attempt BindGroups := do
  let (plan, rest) ← prepare s entry workgroups g config
  ofExec do
    Exec.runInvocations s plan plan.invocationCount 0
    Exec.finish rest

end Wgsl
