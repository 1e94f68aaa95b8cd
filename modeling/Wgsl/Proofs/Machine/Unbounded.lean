import Wgsl.Proofs.Layout.Terminating
import Wgsl.Proofs.Machine.Hooked

/-! # A run without bounds of its own

Beside the interpreter stands one that follows every recursion as it comes: declarations within
declarations, rounds of loops, calls within calls and structures within the arguments of an entry
point. Only what the language itself limits is checked: a loop is abandoned after its last round and
a call is refused below the greatest depth. A number says how far anything is followed; where that is
not far enough, the run stops. It stops as well at a statement inside too many calls.

* `Unbounded.rounds`: the rounds of a loop, which are counted.
* `Unbounded.hooks`: what is followed as it comes. A call is refused by the depth of the machine only.
* `Unbounded.start`, `Unbounded.dispatch`: a start and a dispatch.
-/

namespace Wgsl
set_option autoImplicit false

variable {α : Type}

/-- A computation that stops. -/
def Eval.stopped (stop : Fault) : Eval α := ExceptT.mk fun _ => .error stop

/-- A computation that stops inside too many calls. -/
def Exec.shallow (stop : Fault) (x : Exec α) : Exec α := fun m =>
  if m.callDepth ≤ maxCallDepth then x m else .error stop

namespace Unbounded

open Eval (ofExec stopped)

section

variable (stop : Fault) (n : Nat)

/-- The layout of a type. -/
def typeInfo (t : TypeExpr) : Eval TypeInfo := ofExec (Exec.layout (layoutOf stop n t))

/-- The structure of that name. -/
def structInfo? (name : String) : Eval (Option TypeInfo) :=
  ofExec (Exec.layout (structLayout stop n name))

end

/-- Repeats a round until it says how the loop ends, or until there have been too many. The first
number says how many rounds are followed; the second counts those that have ended. -/
def rounds (stop : Fault) (round : Eval (Option Flow)) : Nat → Nat → Eval Flow
  | 0, _ => stopped stop
  | n + 1, count => do
    match ← round with
    | some flow => return flow
    | none =>
      if maxLoopIterations < count + 1 then
        throw (.other ("loop abandoned after " ++ toString maxLoopIterations ++ " iterations"))
      else rounds stop round n (count + 1)

/-- A loop. -/
def repeated (stop : Fault) (n : Nat) (round : Eval (Option Flow)) : Eval Flow :=
  rounds stop round n 0

/-- Declarations, rounds, calls and structures are followed as they come. -/
def hooks (stop : Fault) (n : Nat) : Hooks where
  typeInfo := typeInfo stop n
  structInfo? := structInfo? stop n
  begun := Exec.shallow stop
  repeated := repeated stop n
  depth := n
  tooDeep _ := stopped stop
  nesting _ := n
  tooNested := stopped stop

/-- Starts a module afresh. -/
def start (s : Shader) (stop : Fault) (n : Nat) (config : Config) : Exec Unit :=
  (hooks stop n).start s config

/-- Runs an entry point over a grid of workgroups and gives the host's resources afterwards. -/
def dispatch (s : Shader) (stop : Fault) (n : Nat) (entry : String) (workgroups : Extent)
    (g : BindGroups) (config : Config) : Attempt BindGroups :=
  (hooks stop n).dispatch s entry workgroups g config

end Unbounded

end Wgsl
