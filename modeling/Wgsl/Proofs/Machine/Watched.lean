import Wgsl.Proofs.Library.Rectangular
import Wgsl.Proofs.Machine.Hooked

/-! # A run that watches its matrices

Beside the interpreter stands one that watches. Around every expression and every statement it looks
through all scopes of the machine, and it looks at what comes out; it stops at the first matrix that
is no rectangle. Products, transposes and determinants read their operands with checks, and it stops
at the first read out of range. What it does otherwise is what the interpreter does.

* `Machine.Rectangular`: every matrix that a name is bound to is a rectangle.
* `Exec.watched`: a computation between two looks at the machine.
* `Watched.start`, `Watched.dispatch`: a start and a dispatch that are watched throughout.
-/

namespace Wgsl
set_option autoImplicit false

variable {α : Type}

/-! ## What is looked at -/

/-- The binding holds rectangles. The matrices of a buffer are those that are loaded from it. -/
def Slot.Rectangular : Slot → Prop
  | .value v => v.Rectangular
  | .view _ => True

instance : DecidablePred Slot.Rectangular
  | .value v => inferInstanceAs (Decidable v.Rectangular)
  | .view _ => .isTrue trivial

/-- Every matrix in a scope, or in an outcome that is used in the place of a call, is a rectangle. -/
structure Machine.Rectangular (m : Machine) : Prop where
  scopes : ∀ scope ∈ m.scopes.scopes, ∀ binding ∈ scope.bindings, binding.2.Rectangular
  callResults : ∀ outcome ∈ m.callResults, outcome.2.Rectangular

theorem Machine.rectangular_iff {m : Machine} : m.Rectangular ↔
    (∀ scope ∈ m.scopes.scopes, ∀ binding ∈ scope.bindings, binding.2.Rectangular) ∧
      ∀ outcome ∈ m.callResults, outcome.2.Rectangular :=
  ⟨fun h => ⟨h.scopes, h.callResults⟩, fun h => ⟨h.1, h.2⟩⟩

instance (m : Machine) : Decidable m.Rectangular := decidable_of_iff' _ Machine.rectangular_iff

/-- The value that the statement hands back holds rectangles. -/
def Flow.Rectangular : Flow → Prop
  | .return_ (some v) => v.Rectangular
  | _ => True

instance : DecidablePred Flow.Rectangular
  | .return_ (some v) => inferInstanceAs (Decidable v.Rectangular)
  | .return_ none | .normal | .break_ | .continue_ | .discard => .isTrue trivial

/-- The outcome is an error, or a value that holds rectangles. -/
def Run.Rectangular : Run Value → Prop
  | .ok v => v.Rectangular
  | .error _ => True

instance : DecidablePred Run.Rectangular
  | .ok v => inferInstanceAs (Decidable v.Rectangular)
  | .error _ => .isTrue trivial

/-- Runs a computation on a machine of rectangles, and stops unless it leaves such a machine behind
and a good outcome. -/
def Exec.watched (stop : Fault) (good : α → Prop) [DecidablePred good] (x : Exec α) : Exec α :=
  fun m =>
    if m.Rectangular then
      match x m with
      | .ok (a, m₁) => if m₁.Rectangular ∧ good a then .ok (a, m₁) else .error stop
      | .error e => .error e
    else .error stop

/-- A part of a statement that is run for its effect. -/
abbrev Exec.guarded (stop : Fault) (x : Exec α) : Exec α := Exec.watched stop (fun _ => True) x

/-- The evaluation of an expression. -/
def Eval.watched (stop : Fault) (x : Eval Value) : Eval Value :=
  ExceptT.mk (Exec.watched stop Run.Rectangular x.run)

/-- A computation with checked reads; it stops at a read out of range. -/
def Eval.ofChecked (stop : Fault) (c : Checked α) : Eval α :=
  ExceptT.mk fun m =>
    match c.run with
    | some r => .ok (r, m)
    | none => .error stop

namespace Watched

open Eval (callMemory ofChecked)

/-- A call of a built-in function. -/
def callBuiltin (stop : Fault) (name : String) (args : List Value) : Eval Value := do
  Builtin.checkArity name args.length
  match Checked.call? name args with
  | some outcome => ofChecked stop outcome
  | none => callMemory name args

/-- Everything is watched, and operations read with checks. -/
def hooks (stop : Fault) : Hooks where
  binary op l r := ofChecked stop (Checked.binary op l r)
  builtin := callBuiltin stop
  evaluated := Eval.watched stop
  begun := Exec.watched stop Flow.Rectangular
  declared := Exec.guarded stop

/-- Starts a module afresh. -/
def start (s : Shader) (stop : Fault) (config : Config) : Exec Unit := (hooks stop).start s config

/-- Runs an entry point over a grid of workgroups and gives the host's resources afterwards. -/
def dispatch (s : Shader) (stop : Fault) (entry : String) (workgroups : Extent) (g : BindGroups)
    (config : Config) : Attempt BindGroups :=
  (hooks stop).dispatch s entry workgroups g config

end Watched

end Wgsl
