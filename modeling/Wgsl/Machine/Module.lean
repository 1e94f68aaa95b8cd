import Wgsl.Machine.Stmt

/-! # Starting a module

The declarations at module scope are run once, in order, in the root scope. Resource variables are
left out: they are bound when a dispatch begins.
-/

namespace Wgsl
set_option autoImplicit false

/-- The line at which an error of a declaration is reported. -/
def Declaration.line : Declaration → Nat
  | .value _ v => v.line
  | .constAssert e => e.line
  | .function f => f.startLine
  | .struct s => s.startLine
  | .alias_ a => a.line
  | .enable _ | .requires _ | .diagnostic .. => 0

/-- The value that the host gives for an override: by its name, else by its number. -/
def Config.overrideValue? (config : Config) (v : VarDecl) : Option Float :=
  match Table.find? config v.name with
  | some x => some x
  | none =>
    ((Attribute.find? v.attributes "id").bind Attribute.firstArgText?).bind (Table.find? config)

namespace Eval

/-- The kind of an override: of its type, else of its default. -/
def overrideKind? (s : Shader) (v : VarDecl) : Eval (Option ScalarKind) := do
  match v.type, v.value with
  | some type, _ => return (← typeInfo type).scalarKind?
  | none, some default => return (← expr s (call s) ScopeArena.root default).scalarKind?
  | none, none => return none

/-- The value of an override. A number of the host goes straight to the declared kind, so that large
integers keep every bit. -/
def overrideValue (s : Shader) (config : Config) (v : VarDecl) : Eval Value := do
  match config.overrideValue? v with
  | some x => return .ofDouble x ((← overrideKind? s v).getD .f32)
  | none =>
    match v.value, v.type with
    | some default, _ => expr s (call s) ScopeArena.root default
    | none, some type => return .zeroOf (← typeInfo type)
    | none, none => return .f32 .zero

/-- Declares an override. -/
def declareOverride (s : Shader) (config : Config) (v : VarDecl) : Eval Unit := do
  let value ← overrideValue s config v
  let value ← match v.type with
    | some type => value.coerceTo (← typeInfo type)
    | none => pure value
  ofExec (Exec.bind ScopeArena.root v.name (.value value))

/-- Runs a declaration at module scope. -/
def declaration (s : Shader) (config : Config) : Declaration → Eval Unit
  | .value .const v => declare s (call s) ScopeArena.root v
  | .value .override v => declareOverride s config v
  | .value .var v => do
    if (s.reflection.resourceNamed? v.name).isNone then
      modify fun m => { m with moduleVars := m.moduleVars ++ [v] }
      declare s (call s) ScopeArena.root v
  | .constAssert e => constAssert s (call s) ScopeArena.root e
  | _ => return ()

end Eval

namespace Exec

/-- Reports the error of a computation at a line. -/
def reporting (line : Nat) (x : Eval Unit) : Exec Unit := do
  match ← x.run with
  | .ok _ => return ()
  | .error e => report (e.at_ line)

/-- Runs a declaration at module scope and reports its error. -/
def declaration (s : Shader) (config : Config) (d : Declaration) : Exec Unit :=
  reporting d.line (Eval.declaration s config d)

/-- Starts a module afresh. -/
def start (s : Shader) (config : Config) : Exec Unit := do
  modify Machine.reset
  s.program.declarations.forM (declaration s config)

end Exec

end Wgsl
