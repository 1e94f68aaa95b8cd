import Wgsl.Proofs.Machine.Mirroring

/-! # Hooks that go unnoticed

Where hooks make no difference one by one, they make none to a program: an expression has the value
that the interpreter gives it, a statement ends as it does there, and so does a call.

* `Hooks.SameValues.mirrors_expr`, `Hooks.SameRuns.mirrors_stmt`: by induction over the syntax, one case
  for each form.
* `Hooks.SameValues.expr_eq`: hooks that leave the values of expressions to the interpreter.
* `Hooks.SameRuns.mirrors_called`: a call, if calls within it do the same.
-/

namespace Wgsl
set_option autoImplicit false

open Run (Ensures ensures_all)
open Eval (mirrors_pure mirrors_throw mirrors_lift mirrors_lifted mirrors_located mirrors_get mirrors_mapM)
open Invariant

variable {I : Invariant} {h : Hooks} {s : Shader} {depth : Nat} {caller caller' : Caller}
  {scope : ScopeId}

/-! ## Expressions -/

namespace Hooks.SameValues

theorem mirrors_castKind (hh : h.SameValues I) (t : TypeExpr) :
    I.Evals depth (fun _ => True) (Eval.castKind t) (h.castKind t) := by
  refine (hh.typeInfo depth t).bind fun info _ => ?_
  cases info.scalarKind? with
  | some kind => exact mirrors_pure trivial
  | none => exact mirrors_throw _

theorem mirrors_callNamed (hh : h.SameValues I) (hcall : I.Answers depth s caller caller')
    (name : String) {args : List Value} (hargs : ∀ v ∈ args, I.value v) :
    I.Evals depth I.value (Eval.callNamed s caller name args) (h.callNamed s caller' name args) := by
  unfold Eval.callNamed callNamed
  cases hf : s.function? name with
  | some f => exact hcall name f args hf hargs
  | none =>
    refine (hh.structInfo? depth name).bind fun found _ => ?_
    cases found with
    | some t => exact mirrors_lift (I.construct t false args hargs)
    | none => exact hh.builtin depth name args hargs

mutual

theorem mirrors_expr (hh : h.SameValues I) (hcall : I.Answers depth s caller caller') :
    ∀ e : Expr, I.Evals depth I.value (Eval.expr s caller scope e) (h.expr s caller' scope e)
  | .literal _ value => by
    rw [Eval.expr, expr]
    exact hh.evaluated (mirrors_pure (I.literal value))
  | .var k name => by
    rw [Eval.expr, expr]
    exact hh.evaluated (mirrors_located k.line (mirrors_readName scope name))
  | .binary k op lhs rhs => by
    rw [Eval.expr, expr]
    refine hh.evaluated (mirrors_located k.line ((mirrors_expr hh hcall lhs).bind fun l hl => ?_))
    have both : ∀ op, I.Evals depth I.value
        (do Value.binary op l (← Eval.expr s caller scope rhs))
        (do h.binary op l (← h.expr s caller' scope rhs)) := fun op =>
      (mirrors_expr hh hcall rhs).bind fun r hr => hh.binary depth op l r hl hr
    cases op with
    | logicalAnd =>
      cases l with
      | bool b =>
        cases b with
        | false => exact mirrors_pure (I.bool false)
        | true => exact both _
      | _ => exact both _
    | logicalOr =>
      cases l with
      | bool b =>
        cases b with
        | true => exact mirrors_pure (I.bool true)
        | false => exact both _
      | _ => exact both _
    | _ => exact both _
  | .unary k op operand => by
    cases op with
    | addressOf =>
      rw [Eval.expr, expr]
      refine hh.evaluated (mirrors_located k.line ((mirrors_place hh hcall operand).bind fun q _ => ?_))
      exact mirrors_pure (I.pointer q)
    | deref =>
      rw [Eval.expr, expr]
      refine hh.evaluated (mirrors_located k.line ((mirrors_expr hh hcall operand).bind fun v _ => ?_))
      exact (mirrors_lift (ensures_all _)).bind fun q _ => mirrors_readPlace q
    | _ =>
      rw [Eval.expr, expr]
      · refine hh.evaluated (mirrors_located k.line ((mirrors_expr hh hcall operand).bind fun v hv => ?_))
        exact mirrors_lift (I.unary _ v hv)
      all_goals nofun
  | .call k name args => by
    rw [Eval.expr, expr]
    refine hh.evaluated (mirrors_located k.line (mirrors_get fun m hm => ?_))
    cases found : m.callResults.lookup k.id with
    | some v =>
      obtain ⟨before, after, split, -⟩ := List.lookup_eq_some_iff.1 found
      have outcome : (k.id, v) ∈ m.callResults :=
        split ▸ List.mem_append_right _ List.mem_cons_self
      have kept : I.value v := I.callResult hm _ outcome
      exact mirrors_pure kept
    | none => exact (mirrors_exprs hh hcall args).bind fun vs hvs => mirrors_callNamed hh hcall name hvs
  | .construct k type args => by
    rw [Eval.expr, expr]
    refine hh.evaluated (mirrors_located k.line ((mirrors_exprs hh hcall args).bind fun vs hvs => ?_))
    refine (hh.typeInfo depth type).bind fun t _ => ?_
    exact mirrors_lift (I.construct t _ vs hvs)
  | .bitcast k type value => by
    rw [Eval.expr, expr]
    refine hh.evaluated (mirrors_located k.line ((mirrors_castKind hh type).bind fun kind _ => ?_))
    refine (mirrors_expr hh hcall value).bind fun v _ => ?_
    exact mirrors_lift (I.bitcast kind v)
  | .index k base index => by
    rw [Eval.expr, expr]
    refine hh.evaluated (mirrors_located k.line ?_)
    split
    · refine (mirrors_place hh hcall base).bind fun q _ => ?_
      refine (mirrors_expr hh hcall index).bind fun v _ => ?_
      exact (mirrors_lift (ensures_all _)).bind fun i _ => mirrors_readPlace _
    · refine (mirrors_expr hh hcall base).bind fun v hv => ?_
      refine (mirrors_expr hh hcall index).bind fun u _ => ?_
      exact (mirrors_lift (ensures_all _)).bind fun i _ => mirrors_lift (I.part _ v hv)
  | .member k base name => by
    rw [Eval.expr, expr]
    refine hh.evaluated (mirrors_located k.line ?_)
    split
    · exact (mirrors_place hh hcall base).bind fun q _ => mirrors_readPlace _
    · exact (mirrors_expr hh hcall base).bind fun v hv => mirrors_lift (I.part _ v hv)
  | .group k inner => by
    rw [Eval.expr, expr]
    exact hh.evaluated (mirrors_located k.line (mirrors_expr hh hcall inner))

theorem mirrors_exprs (hh : h.SameValues I) (hcall : I.Answers depth s caller caller') :
    ∀ es : List Expr, I.Evals depth (fun vs => ∀ v ∈ vs, I.value v) (Eval.exprs s caller scope es)
      (h.exprs s caller' scope es)
  | [] => by
    rw [Eval.exprs, exprs]
    exact mirrors_pure nofun
  | e :: rest => by
    rw [Eval.exprs, exprs]
    refine (mirrors_expr hh hcall e).bind fun v hv => ?_
    refine (mirrors_exprs hh hcall rest).bind fun vs hvs => ?_
    exact mirrors_pure (List.forall_mem_cons.2 ⟨hv, hvs⟩)

theorem mirrors_place (hh : h.SameValues I) (hcall : I.Answers depth s caller caller') :
    ∀ e : Expr, I.Evals depth (fun _ => True) (Eval.place s caller scope e)
      (h.place s caller' scope e)
  | .var k name => by
    rw [Eval.place, place]
    exact mirrors_placeOfName scope name k.line
  | .index _ base index => by
    rw [Eval.place, place]
    refine (mirrors_place hh hcall base).bind fun q _ => ?_
    refine (mirrors_expr hh hcall index).bind fun v _ => ?_
    exact (mirrors_lift (ensures_all _)).bind fun i _ => mirrors_pure trivial
  | .member _ base name => by
    rw [Eval.place, place]
    exact (mirrors_place hh hcall base).bind fun q _ => mirrors_pure trivial
  | .group _ inner => by
    rw [Eval.place, place]
    exact mirrors_place hh hcall inner
  | .unary _ op operand => by
    cases op with
    | deref =>
      rw [Eval.place, place]
      exact (mirrors_expr hh hcall operand).bind fun v _ => mirrors_lift (ensures_all _)
    | _ => exact mirrors_throw _
  | .literal .. => mirrors_throw _
  | .binary .. => mirrors_throw _
  | .call .. => mirrors_throw _
  | .construct .. => mirrors_throw _
  | .bitcast .. => mirrors_throw _

end

/-! ## Simple statements -/

section

variable (hh : h.SameValues I) (hcall : I.Answers depth s caller caller')

include hh hcall

theorem mirrors_condition (e : Expr) : I.Evals depth (fun _ => True) (Eval.condition s caller scope e)
    (h.condition s caller' scope e) :=
  (mirrors_expr hh hcall e).bind fun _ _ => mirrors_lift (ensures_all _)

theorem mirrors_goesOn (e? : Option Expr) : I.Evals depth (fun _ => True)
    (Eval.goesOn s caller scope e?) (h.goesOn s caller' scope e?) := by
  cases e? with
  | none => exact mirrors_pure trivial
  | some e => exact mirrors_condition hh hcall e

theorem mirrors_constAssert (e : Expr) : I.Evals depth (fun _ => True)
    (Eval.constAssert s caller scope e) (h.constAssert s caller' scope e) := by
  refine (mirrors_expr hh hcall e).bind fun v _ => ?_
  refine (mirrors_lift (ensures_all _)).bind fun holds _ => ?_
  cases holds with
  | true => exact mirrors_pure trivial
  | false => exact mirrors_throw _

theorem mirrors_initialValue (v : VarDecl) : I.Evals depth I.value
    (Eval.initialValue s caller scope v) (h.initialValue s caller' scope v) := by
  unfold Eval.initialValue initialValue
  cases v.type with
  | none =>
    cases v.value with
    | none => exact mirrors_throw _
    | some init => exact mirrors_expr hh hcall init
  | some type =>
    cases v.value with
    | none => exact (hh.typeInfo depth type).bind fun t _ => mirrors_pure (I.zeroOf t)
    | some init =>
      refine (hh.typeInfo depth type).bind fun t _ => ?_
      exact (mirrors_expr hh hcall init).bind fun w hw => mirrors_lift (I.coerceTo t w hw)

theorem mirrors_declare (v : VarDecl) : I.Evals depth (fun _ => True)
    (Eval.declare s caller scope v) (h.declare s caller' scope v) := by
  refine Exec.Mirrors.bind (mirrors_initialValue hh hcall v) fun outcome houtcome => ?_
  cases outcome with
  | ok w =>
    refine (mirrors_bindName scope v.name (houtcome w rfl)).bind fun _ _ => ?_
    exact Exec.mirrors_pure fun _ _ => trivial
  | error e =>
    refine (mirrors_bindName scope v.name I.void).bind fun _ _ => ?_
    exact Exec.mirrors_pure fun _ _ => trivial

theorem mirrors_action (a : Action) : I.Evals depth (fun _ => True)
    (Eval.action s caller scope a) (h.action s caller' scope a) := by
  cases a with
  | declare kind v => exact mirrors_declare hh hcall v
  | assign op target? value =>
    cases target? with
    | none => exact (mirrors_expr hh hcall value).bind fun _ _ => mirrors_pure trivial
    | some target =>
      refine (mirrors_place hh hcall target).bind fun q _ => ?_
      refine (mirrors_expr hh hcall value).bind fun v hv => ?_
      cases op with
      | plain => exact mirrors_writePlace q hv
      | compound op =>
        refine (mirrors_readPlace q).bind fun old hold => ?_
        exact (hh.binary depth op old v hold hv).bind fun w hw => mirrors_writePlace q hw
  | increment op target =>
    refine (mirrors_place hh hcall target).bind fun q _ => (mirrors_readPlace q).bind fun old hold => ?_
    refine (hh.binary depth op.binary old _ hold (I.i32 1)).bind fun w hw => ?_
    exact mirrors_writePlace q hw
  | call callee => exact (mirrors_expr hh hcall callee).bind fun _ _ => mirrors_pure trivial

theorem mirrors_isSelected {v : Value} (hv : I.value v) (es : List Expr) :
    I.Evals depth (fun _ => True) (Eval.isSelected s caller scope v es)
      (h.isSelected s caller' scope v es) := by
  induction es with
  | nil => exact mirrors_pure trivial
  | cons e rest ih =>
    refine (mirrors_expr hh hcall e).bind fun w hw => ?_
    refine (hh.binary depth .equal v w hv hw).bind fun same _ => ?_
    refine (mirrors_lift (ensures_all same.truth)).bind fun found _ => ?_
    cases found with
    | true => exact mirrors_pure trivial
    | false => exact ih

theorem mirrors_selected? {v : Value} (hv : I.value v) (clauses : List SwitchClause) :
    I.Evals depth (fun _ => True) (Eval.selected? s caller scope v clauses)
      (h.selected? s caller' scope v clauses) := by
  induction clauses with
  | nil => exact mirrors_pure trivial
  | cons c rest ih =>
    refine (mirrors_isSelected hh hcall hv c.selectors).bind fun found _ => ?_
    cases found with
    | true => exact mirrors_pure trivial
    | false => exact ih.bind fun _ _ => mirrors_pure trivial

theorem mirrors_chosenClause? (e : Expr) (clauses : List SwitchClause) :
    I.Evals depth (fun _ => True) (Eval.chosenClause? s caller scope e clauses)
      (h.chosenClause? s caller' scope e clauses) := by
  refine (mirrors_expr hh hcall e).bind fun v hv => ?_
  refine (mirrors_selected? hh hcall hv clauses).bind fun i? _ => ?_
  cases i? <;> exact mirrors_pure trivial

end

/-! ## What calls are made of -/

section

variable (hh : h.SameValues I)

include hh

theorem mirrors_bindCall (f : Function) {args : List Value} (hargs : ∀ v ∈ args, I.value v) :
    I.Evals depth (fun _ => True) (Eval.bindCall f args) (h.bindCall f args) := by
  unfold Eval.bindCall bindCall
  by_cases hlength : args.length ≠ f.args.length
  · rw [if_pos hlength, if_pos hlength]
    exact mirrors_throw _
  · rw [if_neg hlength, if_neg hlength]
    have named : ∀ p ∈ f.args.zip args, I.Evals depth (fun p => I.value p.2)
        (do return (p.1.name, ← p.2.coerceTo (← Eval.typeInfo p.1.type)))
        (do return (p.1.name, ← p.2.coerceTo (← h.typeInfo p.1.type))) := by
      intro p hp
      have given := hargs p.2 (List.of_mem_zip hp).2
      refine (hh.typeInfo depth _).bind fun t _ => ?_
      exact (mirrors_lift (I.coerceTo t _ given)).bind fun v hv => mirrors_pure hv
    refine (mirrors_mapM named).bind fun values hvalues => mirrors_lifted ?_
    refine (mirrors_pushScope _).bind fun scope _ => ?_
    refine (Exec.mirrors_forM fun p hp => mirrors_bindName scope p.1 (hvalues p hp)).bind fun _ _ => ?_
    exact Exec.mirrors_pure trivial

theorem mirrors_callValue (f : Function) {flow : Flow} (hflow : flow.Carries I.value) :
    I.Evals depth I.value (Eval.callValue f flow) (h.callValue f flow) := by
  have marked : I.Execs depth (fun _ => True)
      (modify fun m => { m with discarded := true } : Exec PUnit)
      (modify fun m => { m with discarded := true }) :=
    Exec.mirrors_modify fun _ hm => I.same hm rfl rfl rfl rfl
  cases flow with
  | return_ v? =>
    cases v? with
    | none => exact mirrors_pure I.void
    | some v =>
      change I.Evals depth I.value (Eval.returnValue f v) (h.returnValue f v)
      unfold Eval.returnValue returnValue
      cases f.returnType with
      | none => exact mirrors_pure hflow
      | some type =>
        exact (hh.typeInfo depth type).bind fun t _ => mirrors_lift (I.coerceTo t v hflow)
  | discard => exact (mirrors_lifted marked).bind fun _ _ => mirrors_pure I.void
  | _ => exact mirrors_pure I.void

end

end Hooks.SameValues

/-! ## Values that are left alone -/

/-- Nothing is asked of machines and values. -/
def Invariant.anything : Invariant where
  toValueInvariant := .anything
  machine _ _ := True
  nameValue _ _ _ := ensures_all _
  readPlace _ _ := ensures_all _
  callResult _ _ _ := trivial
  writePlace _ _ _ _ := trivial
  bind _ _ _ _ _ := trivial
  pushed _ _ := trivial
  popped _ _ := trivial
  same _ _ _ _ _ := trivial
  deeper _ _ _ := trivial
  shallower _ := trivial

namespace Invariant

variable {α : Type} {good : α → Prop} {x x' : Eval α}

theorem mirrors_anything (x : Eval α) : anything.Evals depth (fun _ => True) x x :=
  fun _ _ => ⟨rfl, fun _ _ _ => ⟨trivial, fun _ _ => trivial⟩⟩

theorem answers_anything : anything.Answers 0 s caller caller :=
  fun _ f args _ _ => mirrors_anything (caller f args)

theorem eq_of_anything (hx : anything.Evals 0 good x x') : x' = x :=
  funext fun m => (hx m trivial).1

end Invariant

namespace Hooks.SameValues

variable (hh : h.SameValues .anything)

include hh

theorem expr_eq (e : Expr) : h.expr s caller scope e = Eval.expr s caller scope e :=
  eq_of_anything (hh.mirrors_expr answers_anything e)

theorem condition_eq (e : Expr) : h.condition s caller scope e = Eval.condition s caller scope e :=
  eq_of_anything (hh.mirrors_condition answers_anything e)

theorem constAssert_eq (e : Expr) :
    h.constAssert s caller scope e = Eval.constAssert s caller scope e :=
  eq_of_anything (hh.mirrors_constAssert answers_anything e)

theorem action_eq (a : Action) : h.action s caller scope a = Eval.action s caller scope a :=
  eq_of_anything (hh.mirrors_action answers_anything a)

theorem chosenClause?_eq (e : Expr) (clauses : List SwitchClause) :
    h.chosenClause? s caller scope e clauses = Eval.chosenClause? s caller scope e clauses :=
  eq_of_anything (hh.mirrors_chosenClause? answers_anything e clauses)

theorem bindCall_eq (f : Function) (args : List Value) : h.bindCall f args = Eval.bindCall f args :=
  eq_of_anything (hh.mirrors_bindCall f fun _ _ => trivial)

theorem callValue_eq (f : Function) : h.callValue f = Eval.callValue f :=
  funext fun flow => eq_of_anything (hh.mirrors_callValue f (by cases flow with
    | return_ v? => cases v? <;> trivial
    | _ => trivial))

end Hooks.SameValues

/-! ## Statements -/

namespace Hooks.SameRuns

section

variable (hh : h.SameRuns I) (hcall : I.Answers depth s caller caller')

include hh

/-- A statement that may fail. -/
theorem mirrors_settled (line : Nat) {x x' : Eval Flow}
    (hx : I.Evals depth (Flow.Carries I.value) x x') :
    I.Execs depth (Flow.Carries I.value) (Eval.settled line x) (h.begun (Eval.settled line x')) :=
  hh.begun (Invariant.mirrors_settled line hx)

include hcall

theorem mirrors_simple (st : SimpleStmt) : I.Execs depth (Flow.Carries I.value)
    (Eval.simple s caller scope st) (h.simple s caller' scope st) :=
  hh.mirrors_settled st.line <|
    (hh.mirrors_action hcall st.action).bind fun _ _ => mirrors_pure trivial

theorem mirrors_header (st? : Option SimpleStmt) : I.Execs depth (fun _ => True)
    (Eval.header s caller scope st?) (h.header s caller' scope st?) := by
  cases st? with
  | none => exact Exec.mirrors_pure trivial
  | some st => exact (hh.mirrors_simple hcall st).bind fun _ _ => Exec.mirrors_pure trivial

end

mutual

theorem mirrors_stmt (hh : h.SameRuns I) (hcall : I.Answers depth s caller caller') :
    ∀ (st : Stmt) (scope : ScopeId), I.Execs depth (Flow.Carries I.value)
      (Eval.stmt s caller scope st) (h.stmt s caller' scope st)
  | .simple st, scope => by
    rw [Eval.stmt, stmt]
    exact hh.mirrors_simple hcall st
  | .ifElse line cond body rest, scope => by
    rw [Eval.stmt, stmt]
    refine hh.mirrors_settled line ((hh.mirrors_condition hcall cond).bind fun holds _ => ?_)
    cases holds with
    | true => exact mirrors_inBlock fun inner => mirrors_stmts hh hcall body inner
    | false => exact mirrors_elseChain hh hcall rest scope
  | .forLoop line init cond update body, scope => by
    rw [Eval.stmt, stmt]
    refine hh.mirrors_settled line (mirrors_inScope fun inner => ?_)
    refine (mirrors_lifted (hh.mirrors_header hcall init)).bind fun _ _ => hh.repeated ?_
    refine (hh.mirrors_goesOn hcall cond).bind fun holds _ => ?_
    cases holds with
    | false => exact mirrors_pure fun _ hflow => by cases hflow; trivial
    | true =>
      refine (mirrors_inBlock fun block => mirrors_stmts hh hcall body block).bind fun flow hflow => ?_
      have after := Flow.carries_afterBody hflow
      cases hafter : Eval.afterBody flow with
      | some flow => exact mirrors_pure (hafter ▸ after)
      | none =>
        exact (mirrors_lifted (hh.mirrors_header hcall update)).bind fun _ _ => mirrors_pure nofun
  | .whileLoop line cond body, scope => by
    rw [Eval.stmt, stmt]
    refine hh.mirrors_settled line (hh.repeated ?_)
    refine (hh.mirrors_condition hcall cond).bind fun holds _ => ?_
    cases holds with
    | false => exact mirrors_pure fun _ hflow => by cases hflow; trivial
    | true =>
      refine (mirrors_inBlock fun block => mirrors_stmts hh hcall body block).bind fun flow hflow => ?_
      exact mirrors_pure (Flow.carries_afterBody hflow)
  | .loop line body continuing, scope => by
    rw [Eval.stmt, stmt]
    refine hh.mirrors_settled line (hh.repeated (mirrors_lifted ?_))
    refine (mirrors_inScope fun block => ?_).bind fun flow hflow =>
      Exec.mirrors_pure (Flow.carries_afterBody hflow)
    refine (mirrors_stmts hh hcall body block).bind fun flow hflow => ?_
    cases flow <;> first
      | exact Exec.mirrors_pure hflow
      | exact mirrors_continuingPart hh hcall continuing block
  | .switch line selector clauses, scope => by
    rw [Eval.stmt, stmt]
    refine hh.mirrors_settled line ?_
    refine (hh.mirrors_chosenClause? hcall selector clauses).bind fun i? _ => ?_
    cases i? with
    | none => exact mirrors_pure trivial
    | some i =>
      refine (mirrors_lifted (mirrors_clauseAt hh hcall clauses i scope)).bind fun flow hflow => ?_
      cases flow <;> exact mirrors_pure hflow
  | .block line body, scope => by
    rw [Eval.stmt, stmt]
    exact hh.mirrors_settled line (mirrors_inBlock fun inner => mirrors_stmts hh hcall body inner)
  | .return_ line none, scope => by
    rw [Eval.stmt, stmt]
    exact hh.mirrors_settled line (mirrors_pure trivial)
  | .return_ line (some e), scope => by
    rw [Eval.stmt, stmt]
    exact hh.mirrors_settled line ((hh.mirrors_expr hcall e).bind fun v hv => mirrors_pure hv)
  | .break_ line, scope => by
    rw [Eval.stmt, stmt]
    exact hh.mirrors_settled line (mirrors_pure trivial)
  | .breakIf line cond, scope => by
    rw [Eval.stmt, stmt]
    refine hh.mirrors_settled line ((hh.mirrors_condition hcall cond).bind fun holds _ => ?_)
    cases holds <;> exact mirrors_pure trivial
  | .continue_ line, scope => by
    rw [Eval.stmt, stmt]
    exact hh.mirrors_settled line (mirrors_pure trivial)
  | .discard line, scope => by
    rw [Eval.stmt, stmt]
    exact hh.begun (hh.discard depth line)
  | .constAssert line cond, scope => by
    rw [Eval.stmt, stmt]
    refine hh.mirrors_settled line ?_
    exact (hh.mirrors_constAssert hcall cond).bind fun _ _ => mirrors_pure trivial

theorem mirrors_stmts (hh : h.SameRuns I) (hcall : I.Answers depth s caller caller') :
    ∀ (body : List Stmt) (scope : ScopeId), I.Execs depth (Flow.Carries I.value)
      (Eval.stmts s caller scope body) (h.stmts s caller' scope body)
  | [], scope => by
    rw [Eval.stmts, stmts]
    exact Exec.mirrors_pure trivial
  | st :: rest, scope => by
    rw [Eval.stmts, stmts]
    refine (mirrors_stmt hh hcall st scope).bind fun flow hflow => ?_
    cases flow <;> first
      | exact mirrors_stmts hh hcall rest scope
      | exact Exec.mirrors_pure hflow

theorem mirrors_continuingPart (hh : h.SameRuns I) (hcall : I.Answers depth s caller caller') :
    ∀ (continuing : Option (List Stmt)) (scope : ScopeId), I.Execs depth (Flow.Carries I.value)
      (Eval.continuingPart s caller scope continuing) (h.continuingPart s caller' scope continuing)
  | none, scope => by
    rw [Eval.continuingPart, continuingPart]
    exact Exec.mirrors_pure trivial
  | some body, scope => by
    rw [Eval.continuingPart, continuingPart]
    exact mirrors_stmts hh hcall body scope

theorem mirrors_elseChain (hh : h.SameRuns I) (hcall : I.Answers depth s caller caller') :
    ∀ (rest : ElseChain) (scope : ScopeId), I.Evals depth (Flow.Carries I.value)
      (Eval.elseChain s caller scope rest) (h.elseChain s caller' scope rest)
  | .none, scope => by
    rw [Eval.elseChain, elseChain]
    exact mirrors_pure trivial
  | .else_ body, scope => by
    rw [Eval.elseChain, elseChain]
    exact mirrors_inBlock fun inner => mirrors_stmts hh hcall body inner
  | .elseIf line cond body rest, scope => by
    rw [Eval.elseChain, elseChain]
    refine (hh.mirrors_condition hcall cond).bind fun holds _ => ?_
    cases holds with
    | true => exact mirrors_inBlock fun inner => mirrors_stmts hh hcall body inner
    | false => exact mirrors_elseChain hh hcall rest scope

theorem mirrors_clauseAt (hh : h.SameRuns I) (hcall : I.Answers depth s caller caller') :
    ∀ (clauses : List SwitchClause) (i : Nat) (scope : ScopeId),
      I.Execs depth (Flow.Carries I.value) (Eval.clauseAt s caller scope clauses i)
        (h.clauseAt s caller' scope clauses i)
  | [], i, scope => by
    rw [Eval.clauseAt, clauseAt]
    exact Exec.mirrors_pure trivial
  | .mk line selectors isDefault body :: _, 0, scope => by
    rw [Eval.clauseAt, clauseAt]
    exact mirrors_inScope fun inner => mirrors_stmts hh hcall body inner
  | _ :: rest, i + 1, scope => by
    rw [Eval.clauseAt, clauseAt]
    exact mirrors_clauseAt hh hcall rest i scope

end

/-! ## Calls -/

section

variable (hh : h.SameRuns I)

include hh

/-- A call does the same if the calls within it do. -/
theorem mirrors_called {budget budget' : Nat}
    (hinner : ∀ {before}, I.machine depth before → before.callDepth < maxCallDepth →
      I.Answers (depth + 1) s (Eval.callWithin s budget) (h.callWithin s budget')) :
    I.Answers depth s (Eval.callWithin s (budget + 1)) (h.callWithin s (budget' + 1)) := by
  intro name f args _ hargs
  rw [Eval.callWithin, callWithin]
  refine mirrors_get fun m hm => ?_
  by_cases hdeepest : maxCallDepth ≤ m.callDepth
  · rw [if_pos hdeepest, if_pos hdeepest]
    exact mirrors_throw _
  · rw [if_neg hdeepest, if_neg hdeepest]
    have hroom := Nat.lt_of_not_le hdeepest
    refine (hh.mirrors_bindCall f hargs).bind fun scope _ => ?_
    refine Eval.Mirrors.bind (mirrors_lifted ?_) fun flow hflow => hh.mirrors_callValue f hflow
    refine (mirrors_nested hm hroom (hh.mirrors_stmts (hinner hm hroom) f.body scope)).bind ?_
    exact fun flow hflow => (mirrors_popScope scope).bind fun _ _ => Exec.mirrors_pure hflow

end

end Hooks.SameRuns

end Wgsl
