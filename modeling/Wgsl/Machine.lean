import Wgsl.Host
import Wgsl.Memory.Path
import Wgsl.Reflect

/-! # The machine

The state of a running shader, and the three kinds of computation on it.

* `Exec` changes the state. It stops only where a constant of a type has no value.
* `Eval` may raise a `RunError` besides; the state it has reached stays.
* `Change` does not need the layout of types and always comes to an end.

A shader runs on what is fixed in it: its program, its reflection and its functions.
-/

namespace Wgsl
set_option autoImplicit false

/-! ## Shaders -/

/-- A program made ready to run. -/
structure Shader where
  program : Program
  reflection : Reflection
  /-- The functions by name; the last declaration of a name counts. -/
  functions : Table Function

namespace Shader

def function? (s : Shader) (name : String) : Option Function := s.functions.find? name

/-- Reflects a program; the layouts settled on the way are kept for the run. -/
def ofProgram (p : Program) : Except Fault (Shader × Layouts) := do
  let (reflection, layouts) ← (Reflection.ofProgram p).run (Layouts.ofProgram p)
  let functions := p.functions.foldl (fun (t : Table Function) f => t.insert f.name f) []
  return (⟨p, reflection, functions⟩, layouts)

end Shader

/-! ## State -/

/-- Where a bound resource came from. -/
inductive Bound where
  | buffer (slot : BindSlot) (id : BufferId) (uniform : Bool)
  | texture (slot : BindSlot) (id : TextureId)
  | sampler (slot : BindSlot)
  deriving Inhabited

/-- The state of a running shader. -/
structure Machine where
  layouts : Layouts
  scopes : ScopeArena Slot := .new
  memory : Memory := .empty
  /-- The errors reported since the module was started. -/
  diagnostics : Array RunError := #[]
  /-- The outcomes of calls that were stepped through, by the node of the call. They are used in
  place of calling again. -/
  callResults : List (NodeId × Value) := []
  /-- The variables of the module that are no resources. -/
  moduleVars : List VarDecl := []
  bound : List Bound := []
  /-- How many calls of declared functions are running. -/
  callDepth : Nat := 0
  /-- Set when a called function discards: the invocation ends at the statement of the call. -/
  discarded : Bool := false
  deriving Inhabited

/-- A computation that changes the machine. -/
abbrev Exec := StateT Machine (Except Fault)

/-- A computation that changes the machine and may raise an error of the running shader. -/
abbrev Eval := ExceptT RunError Exec

namespace Machine

/-- Forgets all that a run has left behind, the memory apart. -/
def reset (m : Machine) : Machine :=
  { m with
    scopes := .new
    diagnostics := #[]
    callResults := []
    moduleVars := []
    callDepth := 0
    discarded := false }

/-- Binds a name in a scope. -/
def bind (scope : ScopeId) (name : String) (slot : Slot) (m : Machine) : Machine :=
  { m with scopes := m.scopes.insert scope name slot }

/-- The value of a slot. -/
def slotValue (m : Machine) : Slot → Run Value
  | .value v => pure v
  | .view v => m.memory.load v

/-- The error for a name that is bound nowhere. -/
def unknown (name : String) (line : Nat) : RunError := ⟨.unknownIdentifier name, line⟩

/-- The value of a place. -/
def readPlace (m : Machine) (p : Place) : Run Value :=
  match p.root with
  | .buffer view => m.memory.readPath view p.path
  | .variable_ scope name =>
    match m.scopes.findIn? scope name with
    | some (.value v) => v.atPath p.path
    | some (.view view) => m.memory.readPath view p.path
    | none => throw (unknown name 0)

/-- A change of the memory alone. -/
def onMemory {α : Type} (c : Change Memory α) : Change Machine α :=
  ExceptT.mk fun m =>
    let (outcome, memory) := c.apply m.memory
    (outcome, { m with memory })

/-- Assigns to a variable of a scope. -/
def assignVariable (scope : ScopeId) (name : String) (old : Value) (path : List Access)
    (new : Value) : Change Machine Unit :=
  ExceptT.mk fun m =>
    let (outcome, v) := (Value.assignPath path new).apply old
    (outcome, m.bind scope name (.value v))

/-- Assigns to a place. -/
def writePlace (p : Place) (new : Value) : Change Machine Unit := do
  match p.root with
  | .buffer view => onMemory (Memory.writePath view p.path new)
  | .variable_ scope name =>
    match (← get).scopes.findIn? scope name with
    | some (.value old) => assignVariable scope name old p.path new
    | some (.view view) => onMemory (Memory.writePath view p.path new)
    | none => throw (unknown name 0)

/-- The number of elements of the array at a place. -/
def countAt (m : Machine) (p : Place) : Run Nat :=
  match p.root with
  | .buffer view => m.memory.countAt view p.path
  | .variable_ scope name =>
    match m.scopes.findIn? scope name with
    | some (.view view) => m.memory.countAt view p.path
    | some (.value _) => do
      match ← m.readPlace p with
      | .array items => return items.length
      | v => throw (.mismatch ("arrayLength of " ++ v.typeName))
    | none => throw (unknown name 0)

end Machine

namespace Exec

/-- Lays out types in the layouts of the machine. -/
def layout {α : Type} (x : LayoutM α) : Exec α := fun m => do
  let (a, layouts) ← x.run m.layouts
  return (a, { m with layouts })

def typeInfo (t : TypeExpr) : Exec TypeInfo := layout (LayoutM.typeInfo t)

/-- Reports an error; the run goes on. -/
def report (e : RunError) : Exec Unit :=
  modify fun m => { m with diagnostics := m.diagnostics.push e }

def pushScope (parent : ScopeId) : Exec ScopeId :=
  modifyGet fun m =>
    let (scopes, id) := m.scopes.push parent
    (id, { m with scopes })

def popScope (scope : ScopeId) : Exec Unit :=
  modify fun m => { m with scopes := m.scopes.pop scope }

/-- Runs a computation in a fresh scope and closes it afterwards. -/
def inScope {α : Type} (parent : ScopeId) (x : ScopeId → Exec α) : Exec α := do
  let scope ← pushScope parent
  let a ← x scope
  popScope scope
  return a

def bind (scope : ScopeId) (name : String) (slot : Slot) : Exec Unit :=
  modify (Machine.bind scope name slot)

/-- Runs a computation as one call more. -/
def nested {α : Type} (x : Exec α) : Exec α := do
  modify fun m => { m with callDepth := m.callDepth + 1 }
  let a ← x
  modify fun m => { m with callDepth := m.callDepth - 1 }
  return a

end Exec

namespace Eval

variable {α : Type}

/-- Gives a line to an error that has none. -/
def located (line : Nat) (x : Eval α) : Eval α := ExceptT.adapt (fun e => e.at_ line) x

/-- A computation that raises no error. -/
def ofExec (x : Exec α) : Eval α := ExceptT.lift x

def typeInfo (t : TypeExpr) : Eval TypeInfo := ofExec (Exec.typeInfo t)

/-- The structure of that name. -/
def structInfo? (name : String) : Eval (Option TypeInfo) :=
  ofExec (Exec.layout (LayoutM.structInfo name))

/-- A change of the machine. -/
def ofChange (c : Change Machine α) : Eval α := ExceptT.mk fun m => .ok (c.apply m)

def readPlace (p : Place) : Eval Value := do (← get).readPlace p

def writePlace (p : Place) (v : Value) : Eval Unit := ofChange (Machine.writePlace p v)

/-- Runs a computation in a fresh scope and closes it afterwards, also after an error. -/
def inScope (parent : ScopeId) (x : ScopeId → Eval α) : Eval α :=
  ExceptT.mk (Exec.inScope parent fun scope => (x scope).run)

end Eval

end Wgsl
