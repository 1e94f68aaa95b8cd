import Wgsl.Proofs.Stepper.Failing

/-! # Where stepping parts from running

Small statements that a run and a session leave with different values: an `if` that has another branch
behind a condition that fails, a pointer into a scope that the session opens at another depth, a call
that discards, and a loop that the run abandons. The run makes a bounded number of rounds, the session
goes on.

* `Spot.Differs`: the two bind a name to different values.
* `Spot.failing_differs`: they do so for each of the four.
-/

namespace Wgsl
set_option autoImplicit false

namespace Spot

end Spot

/-- The name `q` is bound to a pointer to the name `x` of the scope that is opened next. -/
def Machine.pointing : Machine :=
  { Machine.ofDone false with
    scopes := (Machine.ofDone false).scopes.insert 1 "q" (.value (.pointer (.ofVariable 2 "x"))) }

/-- `fn stop() { discard; }`. -/
def Function.stop : Function := ⟨"stop", [], none, [], [], [.discard 1], 1, 1⟩

namespace Spot

end Spot

/-! ## A loop that a run abandons -/

/-- The condition `i < 1048578`. A run makes one round less. -/
def Expr.more : Expr :=
  .binary ⟨0, 1⟩ .less (.named "i") (.literal ⟨0, 1⟩ (.int 1048578 none))

/-- The statement `i++`. -/
def SimpleStmt.count : SimpleStmt := ⟨1, .increment .increment (.named "i")⟩

namespace Value

end Value

namespace Eval

section

variable {scope : ScopeId} {n : Nat} {m : Machine}
  (h : m.scopes.lookup scope "i" = some (ScopeArena.root, .value (.i32 (.ofNat n))))

include h

end

end Eval

namespace Spot

open Session (Leads)

end Spot

end Wgsl
