import Wgsl.Fault

/-! # Changes that may stop

A change works on a state and may raise an error in the middle. What was done before the error stays
done.
-/

namespace Wgsl
set_option autoImplicit false

/-- A change of a state: the outcome and the state afterwards, also after an error. -/
abbrev Change (σ α : Type) := ExceptT RunError (StateM σ) α

namespace Change

variable {σ τ α : Type}

/-- The outcome of a change and the state it leaves. -/
def apply (c : Change σ α) (s : σ) : Run α × σ := (ExceptT.run c).run s

/-- A change of a part of the state: the part as it is, and the state for each new part. -/
def onPart (part : τ) (put : τ → σ) (c : Change τ α) : Change σ α :=
  ExceptT.mk fun _ =>
    let (outcome, changed) := c.apply part
    (outcome, put changed)

end Change

end Wgsl
