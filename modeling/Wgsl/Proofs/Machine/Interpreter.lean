import Wgsl.Proofs.Machine.Builtin

/-! # The interpreter in two runs

The same statement, run from corresponding machines, ends in corresponding machines.

* `Expr.Admitted`, `Stmt.Admitted`: the names that are read, the functions that are called and the
  forms that are used are those which the correspondence allows.
* `Eval.evalSim_expr`, `Eval.sim_stmts`: by induction over the syntax, one case for each form.
* `Eval.answers_callWithin`: by induction over the depth of calls.
-/

namespace Wgsl
set_option autoImplicit false

open Correspondence
open Value (rename)

/-! ## What may run -/

mutual

/-- The expression reads names of the set and calls functions that may be called. -/
def Expr.Admitted (C : Correspondence) (S : String → Prop) : Expr → Prop
  | .literal .. => True
  | .var _ name => S name
  | .binary _ _ lhs rhs => Expr.Admitted C S lhs ∧ Expr.Admitted C S rhs
  | .unary _ op operand => (op = .addressOf → C.address) ∧ Expr.Admitted C S operand
  | .call _ name args => C.calls name ∧ Expr.AllAdmitted C S args
  | .construct _ _ args => Expr.AllAdmitted C S args
  | .bitcast _ _ value => Expr.Admitted C S value
  | Expr.index _ base i => Expr.Admitted C S base ∧ Expr.Admitted C S i
  | .member _ base _ => Expr.Admitted C S base
  | .group _ e => Expr.Admitted C S e

def Expr.AllAdmitted (C : Correspondence) (S : String → Prop) : List Expr → Prop
  | [] => True
  | e :: rest => Expr.Admitted C S e ∧ Expr.AllAdmitted C S rest

end

/-- How calls are answered in two runs. -/
def Correspondence.Answers (C : Correspondence) (s : Shader) (call call' : Caller) : Prop :=
  ∀ (p : Prop) (w : C.World) (name : String) (f : Function) (vs vs' : List Value), C.calls name →
    s.function? name = some f → (p → C.valuesAll vs vs') →
    C.EvalSim p w w C.values (call f vs) (call' f vs')

namespace Eval

theorem alike_construct {C : Correspondence} (t : TypeInfo) (inferred : Bool) {vs vs' : List Value}
    (h : C.valuesAll vs vs') :
    Run.Alike C.values (Value.construct t inferred vs) (Value.construct t inferred vs') := by
  obtain ⟨rfl, hs⟩ := h
  have within := Value.natural_construct (ρ := C.within) t inferred vs
  rw [hs] at within
  rw [Value.natural_construct]
  cases hr : Value.construct t inferred vs with
  | error e => rfl
  | ok r =>
    rw [hr] at within
    exact ⟨_, rfl, rfl, (Except.ok.inj within).symm⟩

section

variable {C : Correspondence} (L : C.Lawful) {p : Prop} {w : C.World} {s : Shader}
  {call call' : Caller} {S : String → Prop}

include L

theorem evalSim_integer {v v' : Value} (h : p → C.values v v') :
    C.EvalSim p w w Eq (liftM v.integer) (liftM v'.integer) :=
  evalSim_lift L fun hp => alike_of_invariant (fun _ => Value.integer_rename) (h hp)

theorem evalSim_part (a : Access) {v v' : Value} (h : p → C.values v v') :
    C.EvalSim p w w C.values (liftM (v.part a)) (liftM (v'.part a)) :=
  evalSim_lift L fun hp => alike_of_natural (f := fun v => v.part a) (fun _ => Value.natural_part a) (h hp)

theorem evalSim_dereference {v v' : Value} (h : p → C.values v v') :
    C.EvalSim p w w (C.places w) (liftM (dereference v)) (liftM (dereference v')) := by
  refine evalSim_lift L fun hp => ?_
  have hv := h hp
  cases v with
  | pointer q =>
    obtain ⟨q', rfl, hq⟩ := values_pointer hv
    exact ⟨q', rfl, L.ofPointer hq⟩
  | _ =>
    obtain ⟨rfl, -⟩ := hv
    simp [dereference, Run.Alike, throw, throwThe, MonadExceptOf.throw]

theorem evalSim_castKind (t : TypeExpr) : C.EvalSim p w w Eq (castKind t) (castKind t) := by
  refine evalSim_bind_eq (evalSim_typeInfo L t) fun info => ?_
  cases info.scalarKind? with
  | none => exact evalSim_throw L _
  | some kind => exact evalSim_pure fun _ => rfl

theorem evalSim_callNamed (hcall : C.Answers s call call') {name : String} (hn : C.calls name)
    {vs vs' : List Value} (hs : p → C.valuesAll vs vs') :
    C.EvalSim p w w C.values (callNamed s call name vs) (callNamed s call' name vs') := by
  unfold callNamed
  cases hf : s.function? name with
  | some f => exact hcall p w name f vs vs' hn hf hs
  | none =>
    refine evalSim_bind_eq (evalSim_structInfo? L name) fun found => ?_
    cases found with
    | some t => exact evalSim_lift L fun hp => alike_construct t false (hs hp)
    | none => exact evalSim_callBuiltin L name hs

/-! ## Expressions -/

mutual

theorem evalSim_expr (hcall : C.Answers s call call') (hS : ∀ n, S n → C.sees w n) :
    ∀ (p : Prop) (e : Expr), e.Admitted C S →
      C.EvalSim p w w C.values (expr s call (C.scope w) e) (expr s call' (C.scope' w) e)
  | p, .literal _ value, _ => by
    rw [expr, expr]
    exact evalSim_pure fun _ => values_plain_self fun _ => Value.rename_ofLiteral value
  | p, .var k name, h => by
    rw [expr, expr]
    exact evalSim_located k.line (evalSim_assuming (L.readName w name) fun _ => hS name h)
  | p, .binary k op lhs rhs, h => by
    rw [expr, expr]
    refine evalSim_located k.line ?_
    refine evalSim_bind_values (evalSim_expr hcall hS p lhs h.1) fun l => ?_
    split
    · rw [Value.rename_bool]
      exact evalSim_pure fun _ => values_plain_self fun _ => Value.rename_bool _
    · rw [Value.rename_bool]
      exact evalSim_pure fun _ => values_plain_self fun _ => Value.rename_bool _
    · rename_i notAnd notOr
      split
      · exact absurd (Value.rename_eq_bool.1 ‹_›) (notAnd rfl)
      · exact absurd (Value.rename_eq_bool.1 ‹_›) (notOr rfl)
      · refine evalSim_bind (evalSim_expr hcall hS _ rhs h.2) fun r r' => ?_
        exact evalSim_lift L fun hp => alike_of_natural₂ (fun _ => Value.natural_binary _) hp.1.2 hp.2
  | p, .unary k op operand, h => by
    cases op with
    | addressOf =>
      rw [expr, expr]
      refine evalSim_located k.line ?_
      refine evalSim_bind (evalSim_place hcall hS p operand h.2) fun q q' => ?_
      exact evalSim_pure fun hp => L.toPointer (h.1 rfl) hp.2
    | deref =>
      rw [expr, expr]
      refine evalSim_located k.line ?_
      refine evalSim_bind (evalSim_expr hcall hS p operand h.2) fun v v' => ?_
      refine evalSim_bind (evalSim_dereference L fun hp => hp.2) fun q q' => ?_
      exact evalSim_readPlace L fun hp => hp.2
    | _ =>
      rw [expr, expr]
      · refine evalSim_located k.line ?_
        refine evalSim_bind (evalSim_expr hcall hS p operand h.2) fun v v' => ?_
        exact evalSim_lift L fun hp => alike_of_natural (fun _ => Value.natural_unary _) hp.2
      all_goals nofun
  | p, .call k name args, h => by
    rw [expr, expr]
    refine evalSim_located k.line (evalSim_reading fun m m' => ?_)
    have answered := evalSim_bind (evalSim_exprs hcall hS (p ∧ C.rel w m m') args h.2) fun vs vs' =>
      evalSim_callNamed L hcall h.1 fun hp => hp.2
    split
    · rename_i v found
      refine evalSim_absurd (evalSim_pure (w := w) (Q := Eq) fun _ : True => rfl) fun hp => ?_
      rw [(L.callResults hp.2).1] at found
      cases found
    · refine evalSim_congr answered fun hp => ?_
      rw [(L.callResults hp.2).2]
      rfl
  | p, .construct k type args, h => by
    rw [expr, expr]
    refine evalSim_located k.line ?_
    refine evalSim_bind (evalSim_exprs hcall hS p args h) fun vs vs' => ?_
    refine evalSim_bind_eq (evalSim_typeInfo L type) fun t => ?_
    exact evalSim_lift L fun hp => alike_construct t _ hp.2
  | p, .bitcast k type value, h => by
    rw [expr, expr]
    refine evalSim_located k.line ?_
    refine evalSim_bind_eq (evalSim_castKind L type) fun kind => ?_
    refine evalSim_bind (evalSim_expr hcall hS p value h) fun v v' => ?_
    exact evalSim_lift L fun hp => alike_of_natural (fun _ => Value.natural_bitcast kind) hp.2
  | p, .index k base index, h => by
    rw [expr, expr]
    refine evalSim_located k.line ?_
    split
    · refine evalSim_bind (evalSim_place hcall hS p base h.1) fun q q' => ?_
      refine evalSim_bind (evalSim_expr hcall hS _ index h.2) fun v v' => ?_
      refine evalSim_bind_eq (evalSim_integer L fun hp => hp.2) fun i => ?_
      exact evalSim_readPlace L fun hp => L.below _ hp.1.2
    · refine evalSim_bind (evalSim_expr hcall hS p base h.1) fun v v' => ?_
      refine evalSim_bind (evalSim_expr hcall hS _ index h.2) fun u u' => ?_
      refine evalSim_bind_eq (evalSim_integer L fun hp => hp.2) fun i => ?_
      exact evalSim_part L _ fun hp => hp.1.2
  | p, .member k base name, h => by
    rw [expr, expr]
    refine evalSim_located k.line ?_
    split
    · refine evalSim_bind (evalSim_place hcall hS p base h) fun q q' => ?_
      exact evalSim_readPlace L fun hp => L.below _ hp.2
    · refine evalSim_bind (evalSim_expr hcall hS p base h) fun v v' => ?_
      exact evalSim_part L _ fun hp => hp.2
  | p, .group k e, h => by
    rw [expr, expr]
    exact evalSim_located k.line (evalSim_expr hcall hS p e h)

theorem evalSim_exprs (hcall : C.Answers s call call') (hS : ∀ n, S n → C.sees w n) :
    ∀ (p : Prop) (es : List Expr), Expr.AllAdmitted C S es →
      C.EvalSim p w w C.valuesAll (exprs s call (C.scope w) es) (exprs s call' (C.scope' w) es)
  | p, [], _ => by
    rw [exprs, exprs]
    exact evalSim_pure fun _ => valuesAll_nil
  | p, e :: rest, h => by
    rw [exprs, exprs]
    refine evalSim_bind (evalSim_expr hcall hS p e h.1) fun v v' => ?_
    refine evalSim_bind (evalSim_exprs hcall hS _ rest h.2) fun vs vs' => ?_
    exact evalSim_pure fun hp => valuesAll_cons hp.1.2 hp.2

theorem evalSim_place (hcall : C.Answers s call call') (hS : ∀ n, S n → C.sees w n) :
    ∀ (p : Prop) (e : Expr), e.Admitted C S →
      C.EvalSim p w w (C.places w) (place s call (C.scope w) e) (place s call' (C.scope' w) e)
  | p, .var k name, h => by
    rw [place, place]
    exact evalSim_assuming (L.placeOfName w name k.line) fun _ => hS name h
  | p, .index _ base index, h => by
    rw [place, place]
    refine evalSim_bind (evalSim_place hcall hS p base h.1) fun q q' => ?_
    refine evalSim_bind (evalSim_expr hcall hS _ index h.2) fun v v' => ?_
    refine evalSim_bind_eq (evalSim_integer L fun hp => hp.2) fun i => ?_
    exact evalSim_pure fun hp => L.below _ hp.1.2
  | p, .member _ base name, h => by
    rw [place, place]
    refine evalSim_bind (evalSim_place hcall hS p base h) fun q q' => ?_
    exact evalSim_pure fun hp => L.below _ hp.2
  | p, .group _ e, h => by
    rw [place, place]
    exact evalSim_place hcall hS p e h
  | p, .unary _ op operand, h => by
    cases op with
    | deref =>
      rw [place, place]
      refine evalSim_bind (evalSim_expr hcall hS p operand h.2) fun v v' => ?_
      exact evalSim_dereference L fun hp => hp.2
    | _ => exact evalSim_throw L _
  | p, .literal .., _ => evalSim_throw L _
  | p, .binary .., _ => evalSim_throw L _
  | p, .call .., _ => evalSim_throw L _
  | p, .construct .., _ => evalSim_throw L _
  | p, .bitcast .., _ => evalSim_throw L _

end

end

end Eval

end Wgsl
