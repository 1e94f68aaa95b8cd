import Wgsl.Machine.Dispatch
import Wgsl.Proofs.Machine.Statements
import Wgsl.Proofs.Memory.Outline

/-! # Properties of every computation

Some properties hold of whatever a shader can run, because the primitive steps have them and because
they pass from the parts of a computation to the whole. A `Conduct` is such a property together with
these facts; from them it follows for expressions, statements, calls and declarations.

* `Conduct.obeys`: the property, for computations that may bind names in one scope or in none.
* `Conduct.quiet_expr`, `Conduct.inside_stmts`: by induction over the syntax, one case for each form.
* `Conduct.answers_callWithin`: by induction over the depth of calls.
-/

namespace Wgsl
set_option autoImplicit false

/-- What may be mentioned when only some types may be laid out. -/
def Mention.Typed (types : TypeExpr → Prop) : Mention → Prop
  | .type t => types t
  | _ => True

theorem Mention.typed_of_all {T : TypeExpr → Prop} (h : ∀ t, T t) (x : Mention) : x.Typed T := by
  cases x with
  | type t => exact h t
  | _ => trivial

/-- What running a declaration at module scope may meet. -/
def Declaration.mentions : Declaration → List Mention
  | .value _ v => v.mentions
  | .constAssert e => e.mentions
  | _ => []

/-- The variables of the module mention only types that may be laid out. -/
def Machine.Typed (types : TypeExpr → Prop) (m : Machine) : Prop :=
  ∀ v ∈ m.moduleVars, ∀ x ∈ v.mentions, x.Typed types

/-- A change that leaves scopes, the depth of calls and layouts alone, and memory its outline. It puts
no outcome in the place of a call. -/
structure Machine.SlightChange {α : Type} (types : TypeExpr → Prop) (f : Machine → α × Machine) :
    Prop where
  layouts : ∀ m l, f { m with layouts := l } = ((f m).1, { (f m).2 with layouts := l })
  scopes : ∀ m, (f m).2.scopes = m.scopes
  callDepth : ∀ m, (f m).2.callDepth = m.callDepth
  bound : ∀ m, (f m).2.bound = m.bound
  outline : ∀ m, (f m).2.memory.outline = m.memory.outline
  typed : ∀ m, m.Typed types → (f m).2.Typed types
  callResults : ∀ m, m.callResults = [] → (f m).2.callResults = []

/-- A property of computations that goes from the parts to the whole. -/
structure Conduct where
  /-- Computations that bind names in that scope only. -/
  obeys : {α : Type} → Option ScopeId → Exec α → Prop
  /-- The types that may be laid out. -/
  types : TypeExpr → Prop
  of_quiet : ∀ {α : Type} {scope? : Option ScopeId} {x : Exec α}, obeys none x → obeys scope? x
  obeys_pure : ∀ {α : Type} (a : α), obeys none (pure a : Exec α)
  obeys_bind : ∀ {α β : Type} {scope? : Option ScopeId} {x : Exec α} {f : α → Exec β},
    obeys scope? x → (∀ a, obeys scope? (f a)) → obeys scope? (x >>= f)
  /-- Reading anything but layouts. -/
  obeys_get : ∀ {α : Type} {scope? : Option ScopeId} {f : Machine → Exec α},
    (∀ m l, f { m with layouts := l } = f m) →
    (∀ m, m.Typed types → obeys scope? (f m)) → obeys scope? (get >>= f)
  obeys_change : ∀ {α : Type} {f : Machine → α × Machine}, Machine.SlightChange types f →
    obeys none (modifyGet f : Exec α)
  obeys_typeInfo : ∀ {t : TypeExpr}, types t → obeys none (Exec.typeInfo t)
  obeys_structInfo : ∀ name, obeys none (Exec.layout (LayoutM.structInfo name))
  obeys_writePlace : ∀ q v, obeys none (Eval.writePlace q v).run
  obeys_nested : ∀ {α : Type} {scope? : Option ScopeId} {x : Exec α}, obeys scope? x →
    obeys scope? (Exec.nested x)
  obeys_inScope : ∀ {α : Type} {parent : ScopeId} {x : ScopeId → Exec α},
    (∀ scope, obeys (some scope) (x scope)) → obeys none (Exec.inScope parent x)
  obeys_bindName : ∀ scope name slot, obeys (some scope) (Exec.bind scope name slot)

namespace Conduct

variable {α β : Type} (C : Conduct)

/-- Computations that bind no name. -/
abbrev quiet (x : Exec α) : Prop := C.obeys none x

/-- Computations that bind names in that scope only. -/
abbrev inside (scope : ScopeId) (x : Exec α) : Prop := C.obeys (some scope) x

/-- The types that are mentioned may be laid out. -/
def Admits (mentions : List Mention) : Prop := ∀ x ∈ mentions, x.Typed C.types

variable {C} {scope? : Option ScopeId} {scope : ScopeId}

/-! ## What is mentioned -/

@[simp] theorem admits_append {l l' : List Mention} :
    C.Admits (l ++ l') ↔ C.Admits l ∧ C.Admits l' :=
  List.forall_mem_append

@[simp] theorem admits_cons {a : Mention} {l : List Mention} :
    C.Admits (a :: l) ↔ a.Typed C.types ∧ C.Admits l :=
  List.forall_mem_cons

/-! ## Computations that may fail -/

theorem eval_pure {ε : Type} (a : α) : C.obeys scope? (pure a : ExceptT ε Exec α).run :=
  C.of_quiet (C.obeys_pure _)

theorem eval_throw {ε : Type} (e : ε) : C.obeys scope? (throw e : ExceptT ε Exec α).run :=
  C.of_quiet (C.obeys_pure _)

theorem eval_lift (r : Run α) : C.obeys scope? (liftM r : Eval α).run := by
  cases r with
  | ok a => exact eval_pure a
  | error e => exact eval_throw e

theorem eval_bind {ε : Type} {x : ExceptT ε Exec α} {f : α → ExceptT ε Exec β}
    (hx : C.obeys scope? x.run) (hf : ∀ a, C.obeys scope? (f a).run) :
    C.obeys scope? (x >>= f).run := by
  rw [ExceptT.run_bind]
  refine C.obeys_bind hx fun r => ?_
  cases r with
  | ok a => exact hf a
  | error e => exact C.of_quiet (C.obeys_pure _)

theorem eval_ofExec {ε : Type} {x : Exec α} (h : C.obeys scope? x) :
    C.obeys scope? (ExceptT.lift x : ExceptT ε Exec α).run := by
  change C.obeys scope? (x >>= fun a => pure (Except.ok a))
  exact C.obeys_bind h fun a => C.of_quiet (C.obeys_pure _)

theorem eval_located (line : Nat) {x : Eval α} (h : C.obeys scope? x.run) :
    C.obeys scope? (Eval.located line x).run := by
  rw [Eval.run_located]
  exact C.obeys_bind h fun r => C.of_quiet (C.obeys_pure _)

theorem eval_get {f : Machine → Eval α} (hf : ∀ m l, f { m with layouts := l } = f m)
    (h : ∀ m, C.obeys scope? (f m).run) : C.obeys scope? (get >>= f).run :=
  C.obeys_get (f := fun m => (f m).run) (fun m l => congrArg ExceptT.run (hf m l)) fun m _ => h m

/-- Reading an outcome off anything but layouts. -/
theorem eval_read {r : Machine → Run α} (hr : ∀ m l, r { m with layouts := l } = r m) :
    C.obeys scope? (get >>= fun m => liftM (r m) : Eval α).run :=
  eval_get (fun m l => by rw [hr]) fun m => eval_lift _

theorem eval_typeInfo {t : TypeExpr} (h : C.types t) : C.obeys scope? (Eval.typeInfo t).run :=
  eval_ofExec (C.of_quiet (C.obeys_typeInfo h))

theorem eval_structInfo (name : String) : C.obeys scope? (Eval.structInfo? name).run :=
  eval_ofExec (C.of_quiet (C.obeys_structInfo name))

theorem eval_writePlace (q : Place) (v : Value) : C.obeys scope? (Eval.writePlace q v).run :=
  C.of_quiet (C.obeys_writePlace q v)

theorem eval_inScope {parent : ScopeId} {x : ScopeId → Eval α}
    (h : ∀ scope, C.inside scope (x scope).run) : C.obeys scope? (Eval.inScope parent x).run :=
  C.of_quiet (C.obeys_inScope h)

/-- Changes of the machine that only touch what memory holds. -/
theorem eval_onMemory {c : Change Memory α} (hc : c.Fixes Memory.outline) :
    C.obeys scope? (Eval.ofChange (Machine.onMemory c)).run := by
  have slight : Machine.SlightChange C.types (Machine.onMemory c).apply :=
    ⟨fun _ _ => rfl, fun _ => rfl, fun _ => rfl, fun _ => rfl, fun m => hc m.memory, fun _ h => h,
      fun _ h => h⟩
  exact C.of_quiet (C.obeys_change slight)

theorem obeys_modify {f : Machine → Machine}
    (h : Machine.SlightChange C.types fun m => (PUnit.unit, f m)) :
    C.obeys scope? (modify f : Exec PUnit) :=
  C.of_quiet (C.obeys_change h)

theorem obeys_report (e : RunError) : C.obeys scope? (Exec.report e) :=
  obeys_modify ⟨fun _ _ => rfl, fun _ => rfl, fun _ => rfl, fun _ => rfl, fun _ => rfl,
    fun _ h => h, fun _ h => h⟩

theorem obeys_forM {F : β → Exec PUnit} {l : List β} (h : ∀ b ∈ l, C.obeys scope? (F b)) :
    C.obeys scope? (l.forM F) := by
  induction l with
  | nil => exact C.of_quiet (C.obeys_pure _)
  | cons b l ih =>
    rw [List.forM_eq_forM, List.forM_cons]
    refine C.obeys_bind (h b List.mem_cons_self) fun _ => ?_
    exact ih fun c hc => h c (List.mem_cons_of_mem _ hc)

theorem eval_mapM {ε : Type} {F : β → ExceptT ε Exec α} {l : List β} (h : ∀ b ∈ l, C.obeys scope? (F b).run) :
    C.obeys scope? (l.mapM F).run := by
  induction l with
  | nil => exact eval_pure _
  | cons b l ih =>
    rw [List.mapM_cons]
    refine eval_bind (h b List.mem_cons_self) fun a => ?_
    refine eval_bind (ih fun c hc => h c (List.mem_cons_of_mem _ hc)) fun as => eval_pure _

/-! ## Built-in functions -/

theorem eval_readName (scope : ScopeId) (name : String) :
    C.obeys scope? (Eval.readName scope name).run := by
  refine eval_get (fun _ _ => rfl) fun m => ?_
  split
  · exact eval_lift _
  · exact eval_throw _

theorem eval_placeOfName (scope : ScopeId) (name : String) (line : Nat) :
    C.obeys scope? (Eval.placeOfName scope name line).run := by
  refine eval_get (fun _ _ => rfl) fun m => ?_
  split
  · exact eval_pure _
  · exact eval_pure _
  · exact eval_pure _
  · exact eval_throw _

theorem eval_readPlace (q : Place) : C.obeys scope? (Eval.readPlace q).run :=
  eval_read fun _ _ => rfl

theorem eval_texture (v : Value) : C.obeys scope? (Eval.texture v).run := by
  unfold Eval.texture
  split
  · exact eval_read fun _ _ => rfl
  · exact eval_throw _

theorem eval_atomic (update : Value → Value → Run Value) (q : Place) (v : Value) :
    C.obeys scope? (Eval.atomic update q v).run := by
  refine eval_bind (eval_readPlace q) fun old => eval_bind (eval_lift _) fun new => ?_
  exact eval_bind (eval_writePlace q new) fun _ => eval_pure _

theorem eval_compareExchange (q : Place) (expected new : Value) :
    C.obeys scope? (Eval.compareExchange q expected new).run := by
  refine eval_bind (eval_readPlace q) fun old => eval_bind (eval_lift _) fun same => ?_
  refine eval_bind (eval_lift _) fun exchanged => ?_
  cases exchanged with
  | true => exact eval_bind (eval_writePlace q new) fun _ => eval_pure _
  | false => exact eval_pure _

theorem eval_textureStore (v : Value) (args : List Value) :
    C.obeys scope? (Eval.textureStore v args).run := by
  unfold Eval.textureStore
  split
  · exact eval_throw _
  · refine eval_bind (eval_texture v) fun t => eval_bind (eval_lift _) fun coords => ?_
    cases v with
    | texture id =>
      refine eval_bind (eval_onMemory (Memory.fixes_onTexture id ?_)) fun _ => eval_pure _
      exact Texture.fixes_store coords _
    | _ => exact eval_throw _

theorem eval_callMemory (name : String) (args : List Value) :
    C.obeys scope? (Eval.callMemory name args).run := by
  unfold Eval.callMemory
  split
  · refine eval_bind (eval_lift _) fun q => ?_
    exact eval_get (fun _ _ => rfl) fun m => eval_bind (eval_lift _) fun n => eval_pure _
  · exact eval_bind (eval_lift _) eval_readPlace
  · exact eval_bind (eval_lift _) eval_readPlace
  · refine eval_bind (eval_lift _) fun q => ?_
    exact eval_bind (eval_writePlace q _) fun _ => eval_pure _
  · exact eval_bind (eval_lift _) fun q => eval_compareExchange q _ _
  · exact eval_bind (eval_texture _) fun t => eval_pure _
  · exact eval_bind (eval_texture _) fun t => eval_pure _
  · refine eval_bind (eval_texture _) fun t => eval_bind (eval_lift _) fun coords => eval_lift _
  · exact eval_textureStore _ _
  · split
    · exact eval_bind (eval_lift _) fun q => eval_atomic _ q _
    · exact eval_throw _
  · exact eval_throw _

theorem eval_callBuiltin (name : String) (args : List Value) :
    C.obeys scope? (Eval.callBuiltin name args).run := by
  refine eval_bind (eval_lift _) fun _ => ?_
  split
  · exact eval_lift _
  · exact eval_callMemory name args

/-! ## Expressions -/

/-- Calls obey, whatever their arguments. -/
def Answers (C : Conduct) (s : Shader) (call : Caller) : Prop :=
  ∀ name f args, s.function? name = some f → C.quiet (call f args).run

section

variable {s : Shader} {call : Caller}

theorem eval_callNamed (hcall : C.Answers s call) (name : String) (args : List Value) :
    C.obeys scope? (Eval.callNamed s call name args).run := by
  unfold Eval.callNamed
  split
  · exact C.of_quiet (hcall _ _ args ‹_›)
  · refine eval_bind (eval_structInfo name) fun t? => ?_
    cases t? with
    | some t => exact eval_lift _
    | none => exact eval_callBuiltin name args

theorem eval_castKind {t : TypeExpr} (h : C.types t) : C.obeys scope? (Eval.castKind t).run := by
  refine eval_bind (eval_typeInfo h) fun info => ?_
  split
  · exact eval_pure _
  · exact eval_throw _

mutual

theorem eval_expr (hcall : C.Answers s call) : ∀ e : Expr, C.Admits e.mentions →
    C.obeys scope? (Eval.expr s call scope e).run
  | .literal _ value, _ => by
    rw [Eval.expr]
    exact eval_pure _
  | .var k name, _ => by
    rw [Eval.expr]
    exact eval_located k.line (eval_readName scope name)
  | .binary k op lhs rhs, h => by
    rw [Expr.mentions, admits_append] at h
    rw [Eval.expr]
    refine eval_located k.line (eval_bind (eval_expr hcall lhs h.1) fun l => ?_)
    split
    · exact eval_pure _
    · exact eval_pure _
    · exact eval_bind (eval_expr hcall rhs h.2) fun r => eval_lift _
  | .unary k op operand, h => by
    rw [Expr.mentions] at h
    cases op with
    | addressOf =>
      rw [Eval.expr]
      exact eval_located k.line (eval_bind (eval_place hcall operand h) fun q => eval_pure _)
    | deref =>
      rw [Eval.expr]
      refine eval_located k.line (eval_bind (eval_expr hcall operand h) fun v => ?_)
      exact eval_bind (eval_lift _) eval_readPlace
    | _ =>
      rw [Eval.expr]
      · exact eval_located k.line (eval_bind (eval_expr hcall operand h) fun v => eval_lift _)
      all_goals nofun
  | .call k name args, h => by
    rw [Expr.mentions, admits_cons] at h
    rw [Eval.expr]
    refine eval_located k.line (eval_get (fun _ _ => rfl) fun m => ?_)
    split
    · exact eval_pure _
    · exact eval_bind (eval_exprs hcall args h.2) fun vs => eval_callNamed hcall name vs
  | .construct k type args, h => by
    rw [Expr.mentions, admits_cons] at h
    rw [Eval.expr]
    refine eval_located k.line (eval_bind (eval_exprs hcall args h.2) fun vs => ?_)
    exact eval_bind (eval_typeInfo h.1) fun t => eval_lift _
  | .bitcast k type value, h => by
    rw [Expr.mentions, admits_cons] at h
    rw [Eval.expr]
    refine eval_located k.line (eval_bind (eval_castKind h.1) fun kind => ?_)
    exact eval_bind (eval_expr hcall value h.2) fun v => eval_lift _
  | .index k base index, h => by
    rw [Expr.mentions, admits_append] at h
    rw [Eval.expr]
    refine eval_located k.line ?_
    split
    · refine eval_bind (eval_place hcall base h.1) fun q => ?_
      refine eval_bind (eval_expr hcall index h.2) fun v => ?_
      exact eval_bind (eval_lift _) fun i => eval_readPlace _
    · refine eval_bind (eval_expr hcall base h.1) fun v => ?_
      refine eval_bind (eval_expr hcall index h.2) fun u => ?_
      exact eval_bind (eval_lift _) fun i => eval_lift _
  | .member k base name, h => by
    rw [Expr.mentions] at h
    rw [Eval.expr]
    refine eval_located k.line ?_
    split
    · exact eval_bind (eval_place hcall base h) fun q => eval_readPlace _
    · exact eval_bind (eval_expr hcall base h) fun v => eval_lift _
  | .group k e, h => by
    rw [Expr.mentions] at h
    rw [Eval.expr]
    exact eval_located k.line (eval_expr hcall e h)

theorem eval_exprs (hcall : C.Answers s call) : ∀ es : List Expr,
    C.Admits (Expr.listMentions es) → C.obeys scope? (Eval.exprs s call scope es).run
  | [], _ => by
    rw [Eval.exprs]
    exact eval_pure _
  | e :: rest, h => by
    rw [Expr.listMentions, admits_append] at h
    rw [Eval.exprs]
    refine eval_bind (eval_expr hcall e h.1) fun v => ?_
    exact eval_bind (eval_exprs hcall rest h.2) fun vs => eval_pure _

theorem eval_place (hcall : C.Answers s call) : ∀ e : Expr, C.Admits e.mentions →
    C.obeys scope? (Eval.place s call scope e).run
  | .var k name, _ => by
    rw [Eval.place]
    exact eval_placeOfName scope name k.line
  | .index _ base index, h => by
    rw [Expr.mentions, admits_append] at h
    rw [Eval.place]
    refine eval_bind (eval_place hcall base h.1) fun q => ?_
    refine eval_bind (eval_expr hcall index h.2) fun v => ?_
    exact eval_bind (eval_lift _) fun i => eval_pure _
  | .member _ base name, h => by
    rw [Expr.mentions] at h
    rw [Eval.place]
    exact eval_bind (eval_place hcall base h) fun q => eval_pure _
  | .group _ e, h => by
    rw [Expr.mentions] at h
    rw [Eval.place]
    exact eval_place hcall e h
  | .unary _ op operand, h => by
    rw [Expr.mentions] at h
    cases op with
    | deref =>
      rw [Eval.place]
      exact eval_bind (eval_expr hcall operand h) fun v => eval_lift _
    | _ => exact eval_throw _
  | .literal .., _ => eval_throw _
  | .binary .., _ => eval_throw _
  | .call .., _ => eval_throw _
  | .construct .., _ => eval_throw _
  | .bitcast .., _ => eval_throw _

end

/-! ## Simple statements -/

theorem eval_condition (hcall : C.Answers s call) {e : Expr} (h : C.Admits e.mentions) :
    C.obeys scope? (Eval.condition s call scope e).run :=
  eval_bind (eval_expr hcall e h) fun _ => eval_lift _

theorem eval_goesOn (hcall : C.Answers s call) {e? : Option Expr}
    (h : C.Admits (e?.elim [] Expr.mentions)) :
    C.obeys scope? (Eval.goesOn s call scope e?).run := by
  cases e? with
  | none => exact eval_pure _
  | some e => exact eval_condition hcall h

theorem eval_constAssert (hcall : C.Answers s call) {e : Expr} (h : C.Admits e.mentions) :
    C.obeys scope? (Eval.constAssert s call scope e).run := by
  refine eval_bind (eval_expr hcall e h) fun v => eval_bind (eval_lift _) fun holds => ?_
  cases holds with
  | true => exact eval_pure _
  | false => exact eval_throw _

theorem eval_initialValue (hcall : C.Answers s call) {v : VarDecl} (h : C.Admits v.mentions) :
    C.obeys scope? (Eval.initialValue s call scope v).run := by
  unfold VarDecl.mentions at h
  unfold Eval.initialValue
  cases ht : v.type <;> cases hv : v.value <;>
    simp only [ht, hv, Option.elim, admits_append, admits_cons, Mention.Typed] at h
  · exact eval_throw _
  · exact eval_expr hcall _ h.1.1
  · exact eval_bind (eval_typeInfo h.1.2.1) fun t => eval_pure _
  · refine eval_bind (eval_typeInfo h.1.2.1) fun t => ?_
    exact eval_bind (eval_expr hcall _ h.1.1) fun u => eval_lift _

theorem eval_declare (hcall : C.Answers s call) {v : VarDecl} (h : C.Admits v.mentions) :
    C.inside scope (Eval.declare s call scope v).run := by
  unfold Eval.declare
  refine C.obeys_bind (eval_initialValue hcall h) fun outcome => ?_
  cases outcome with
  | ok value => exact C.obeys_bind (C.obeys_bindName _ _ _) fun _ => C.of_quiet (C.obeys_pure _)
  | error e => exact C.obeys_bind (C.obeys_bindName _ _ _) fun _ => C.of_quiet (C.obeys_pure _)

theorem obeys_settled (line : Nat) {x : Eval Flow} (h : C.obeys scope? x.run) :
    C.obeys scope? (Eval.settled line x) := by
  refine C.obeys_bind h fun outcome => C.obeys_get (fun _ _ => rfl) fun m _ => ?_
  split
  · exact C.of_quiet (C.obeys_pure _)
  · cases outcome with
    | ok flow => exact C.of_quiet (C.obeys_pure _)
    | error e => exact C.obeys_bind (obeys_report _) fun _ => C.of_quiet (C.obeys_pure _)

theorem eval_action (hcall : C.Answers s call) {st : SimpleStmt} (h : C.Admits st.mentions)
    (hd : st.action.declares? = none ∨ scope? = some scope) :
    C.obeys scope? (Eval.action s call scope st.action).run := by
  unfold SimpleStmt.mentions at h
  cases ha : st.action with
  | declare kind v =>
    rw [ha] at h hd
    obtain hd | rfl := hd
    · cases hd
    · exact eval_declare hcall h
  | assign op target value =>
    rw [ha] at h
    simp only [admits_append] at h
    cases target with
    | none => exact eval_bind (eval_expr hcall value h.2) fun _ => eval_pure _
    | some target =>
      refine eval_bind (eval_place hcall target h.1) fun q => ?_
      refine eval_bind (eval_expr hcall value h.2) fun rhs => ?_
      cases op with
      | plain => exact eval_writePlace q rhs
      | compound op =>
        refine eval_bind (eval_readPlace q) fun old => ?_
        exact eval_bind (eval_lift _) fun new => eval_writePlace q new
  | increment op target =>
    rw [ha] at h
    refine eval_bind (eval_place hcall target h) fun q => ?_
    refine eval_bind (eval_readPlace q) fun old => ?_
    exact eval_bind (eval_lift _) fun new => eval_writePlace q new
  | call callee =>
    rw [ha] at h
    exact eval_bind (eval_expr hcall callee h) fun _ => eval_pure _

theorem obeys_simple (hcall : C.Answers s call) {st : SimpleStmt} (h : C.Admits st.mentions)
    (hd : st.action.declares? = none ∨ scope? = some scope) :
    C.obeys scope? (Eval.simple s call scope st) :=
  obeys_settled st.line (eval_bind (eval_action hcall h hd) fun _ => eval_pure _)

theorem inside_header (hcall : C.Answers s call) {st? : Option SimpleStmt}
    (h : C.Admits (st?.elim [] SimpleStmt.mentions)) :
    C.inside scope (Eval.header s call scope st?) := by
  cases st? with
  | none => exact C.of_quiet (C.obeys_pure _)
  | some st =>
    exact C.obeys_bind (obeys_simple hcall h (Or.inr rfl)) fun _ => C.of_quiet (C.obeys_pure _)

/-! ## Loops and selections -/

theorem eval_rounds {round : Eval (Option Flow)} (h : C.obeys scope? round.run) (n : Nat) :
    C.obeys scope? (Eval.rounds round n).run := by
  induction n with
  | zero => exact eval_throw _
  | succ n ih =>
    refine eval_bind h fun ending => ?_
    cases ending with
    | none => exact ih
    | some flow => exact eval_pure _

theorem eval_isSelected (hcall : C.Answers s call) (v : Value) {es : List Expr}
    (h : C.Admits (Expr.listMentions es)) :
    C.obeys scope? (Eval.isSelected s call scope v es).run := by
  induction es with
  | nil => exact eval_pure _
  | cons e rest ih =>
    rw [Expr.listMentions, admits_append] at h
    refine eval_bind (eval_expr hcall e h.1) fun u => eval_bind (eval_lift _) fun b => ?_
    refine eval_bind (eval_lift _) fun holds => ?_
    cases holds with
    | true => exact eval_pure _
    | false => exact ih h.2

theorem eval_selected? (hcall : C.Answers s call) (v : Value) {clauses : List SwitchClause}
    (h : C.Admits (SwitchClause.mentions clauses)) :
    C.obeys scope? (Eval.selected? s call scope v clauses).run := by
  induction clauses with
  | nil => exact eval_pure _
  | cons c rest ih =>
    obtain ⟨line, selectors, isDefault, body⟩ := c
    simp only [SwitchClause.mentions, admits_append] at h
    refine eval_bind (eval_isSelected hcall v h.1.1) fun holds => ?_
    cases holds with
    | true => exact eval_pure _
    | false => exact eval_bind (ih h.2) fun i => eval_pure _

theorem eval_chosenClause? (hcall : C.Answers s call) {e : Expr} (he : C.Admits e.mentions)
    {clauses : List SwitchClause} (h : C.Admits (SwitchClause.mentions clauses)) :
    C.obeys scope? (Eval.chosenClause? s call scope e clauses).run := by
  refine eval_bind (eval_expr hcall e he) fun v => ?_
  refine eval_bind (eval_selected? hcall v h) fun i => ?_
  cases i with
  | some i => exact eval_pure _
  | none => exact eval_pure _

/-! ## Statements -/

/-- What is mentioned in a scope, its marks apart. -/
theorem admits_of_scope {l : List Mention} (h : C.Admits (.enter :: (l ++ [.leave]))) :
    C.Admits l := by
  simp only [admits_cons, admits_append] at h
  exact h.2.1

theorem admits_of_block {body : List Stmt} (h : C.Admits (Stmt.blockMentions body)) :
    C.Admits (Stmt.listMentions body) := by
  rw [Stmt.blockMentions] at h
  exact admits_of_scope h

theorem eval_inBlock {body : ScopeId → Exec Flow} (h : ∀ scope, C.inside scope (body scope)) :
    C.obeys scope? (Eval.inBlock scope body).run :=
  eval_ofExec (C.of_quiet (C.obeys_inScope h))

mutual

/-- A statement binds no name, unless it is a declaration. -/
theorem obeys_stmt (hcall : C.Answers s call) :
    ∀ (st : Stmt) (scope? : Option ScopeId) (scope : ScopeId), C.Admits st.mentions →
      st.declares? = none ∨ scope? = some scope → C.obeys scope? (Eval.stmt s call scope st)
  | .simple st, scope?, scope, h, hd => by
    rw [Stmt.mentions] at h
    rw [Eval.stmt]
    exact obeys_simple hcall h hd
  | .ifElse line cond body rest, scope?, scope, h, _ => by
    simp only [Stmt.mentions, admits_append] at h
    rw [Eval.stmt]
    refine obeys_settled line (eval_bind (eval_condition hcall h.1.1) fun holds => ?_)
    cases holds with
    | true => exact eval_inBlock fun inner => inside_stmts hcall body inner (admits_of_block h.1.2)
    | false => exact eval_elseChain hcall rest scope? scope h.2
  | .forLoop line init cond update body, scope?, scope, h, _ => by
    simp only [Stmt.mentions, admits_append, admits_cons] at h
    obtain ⟨-, ⟨⟨⟨hinit, hcond⟩, hupdate⟩, hbody⟩, -⟩ := h
    rw [Eval.stmt]
    refine obeys_settled line (eval_inScope fun inner => ?_)
    refine eval_bind (eval_ofExec (inside_header hcall hinit)) fun _ => eval_rounds ?_ _
    refine eval_bind (eval_goesOn hcall hcond) fun holds => ?_
    cases holds with
    | false => exact eval_pure _
    | true =>
      refine eval_bind (eval_inBlock fun inner =>
        inside_stmts hcall body inner (admits_of_block hbody)) fun flow => ?_
      split
      · exact eval_pure _
      · exact eval_bind (eval_ofExec (inside_header hcall hupdate)) fun _ => eval_pure _
  | .whileLoop line cond body, scope?, scope, h, _ => by
    simp only [Stmt.mentions, admits_append] at h
    rw [Eval.stmt]
    refine obeys_settled line (eval_rounds (eval_bind (eval_condition hcall h.1) fun holds => ?_) _)
    cases holds with
    | false => exact eval_pure _
    | true =>
      exact eval_bind (eval_inBlock fun inner =>
        inside_stmts hcall body inner (admits_of_block h.2)) fun flow => eval_pure _
  | .loop line body continuing, scope?, scope, h, _ => by
    simp only [Stmt.mentions, admits_append] at h
    rw [Eval.stmt]
    refine obeys_settled line (eval_rounds (eval_ofExec ?_) _)
    refine C.obeys_bind (C.of_quiet (C.obeys_inScope fun inner => ?_)) fun flow =>
      C.of_quiet (C.obeys_pure _)
    refine C.obeys_bind (inside_stmts hcall body inner (admits_of_block h.1)) fun flow => ?_
    split
    · exact inside_continuingPart hcall continuing inner h.2
    · exact inside_continuingPart hcall continuing inner h.2
    · exact C.of_quiet (C.obeys_pure _)
  | .switch line selector clauses, scope?, scope, h, _ => by
    simp only [Stmt.mentions, admits_append] at h
    rw [Eval.stmt]
    refine obeys_settled line (eval_bind (eval_chosenClause? hcall h.1 h.2) fun chosen => ?_)
    cases chosen with
    | none => exact eval_pure _
    | some i =>
      refine eval_bind (eval_ofExec (C.of_quiet (quiet_clauseAt hcall clauses scope i h.2)))
        fun flow => ?_
      split <;> exact eval_pure _
  | .block line body, scope?, scope, h, _ => by
    rw [Stmt.mentions] at h
    rw [Eval.stmt]
    exact obeys_settled line (eval_inBlock fun inner =>
      inside_stmts hcall body inner (admits_of_block h))
  | .return_ line value, scope?, scope, h, _ => by
    rw [Stmt.mentions] at h
    cases value with
    | none =>
      rw [Eval.stmt]
      exact obeys_settled line (eval_pure _)
    | some e =>
      rw [Eval.stmt]
      exact obeys_settled line (eval_bind (eval_expr hcall e h) fun v => eval_pure _)
  | .break_ line, scope?, scope, _, _ => by
    rw [Eval.stmt]
    exact obeys_settled line (eval_pure _)
  | .breakIf line cond, scope?, scope, h, _ => by
    rw [Stmt.mentions] at h
    rw [Eval.stmt]
    refine obeys_settled line (eval_bind (eval_condition hcall h) fun holds => ?_)
    cases holds <;> exact eval_pure _
  | .continue_ line, scope?, scope, _, _ => by
    rw [Eval.stmt]
    exact obeys_settled line (eval_pure _)
  | .discard line, scope?, scope, _, _ => by
    rw [Eval.stmt]
    exact obeys_settled line (eval_pure _)
  | .constAssert line cond, scope?, scope, h, _ => by
    rw [Stmt.mentions] at h
    rw [Eval.stmt]
    exact obeys_settled line (eval_bind (eval_constAssert hcall h) fun _ => eval_pure _)

theorem inside_stmts (hcall : C.Answers s call) :
    ∀ (body : List Stmt) (scope : ScopeId), C.Admits (Stmt.listMentions body) →
      C.inside scope (Eval.stmts s call scope body)
  | [], scope, _ => by
    rw [Eval.stmts]
    exact C.of_quiet (C.obeys_pure _)
  | st :: rest, scope, h => by
    rw [Stmt.listMentions, admits_append] at h
    rw [Eval.stmts]
    refine C.obeys_bind (obeys_stmt hcall st _ scope h.1 (Or.inr rfl)) fun flow => ?_
    split
    · exact inside_stmts hcall rest scope h.2
    · exact C.of_quiet (C.obeys_pure _)

theorem inside_continuingPart (hcall : C.Answers s call) :
    ∀ (body : Option (List Stmt)) (scope : ScopeId), C.Admits (Stmt.continuingMentions body) →
      C.inside scope (Eval.continuingPart s call scope body)
  | none, scope, _ => by
    rw [Eval.continuingPart]
    exact C.of_quiet (C.obeys_pure _)
  | some body, scope, h => by
    rw [Stmt.continuingMentions] at h
    rw [Eval.continuingPart]
    exact inside_stmts hcall body scope (admits_of_scope h)

theorem eval_elseChain (hcall : C.Answers s call) :
    ∀ (rest : ElseChain) (scope? : Option ScopeId) (scope : ScopeId), C.Admits rest.mentions →
      C.obeys scope? (Eval.elseChain s call scope rest).run
  | .none, scope?, scope, _ => by
    rw [Eval.elseChain]
    exact eval_pure _
  | .else_ body, scope?, scope, h => by
    rw [ElseChain.mentions] at h
    rw [Eval.elseChain]
    exact eval_inBlock fun inner => inside_stmts hcall body inner (admits_of_scope h)
  | .elseIf _ cond body rest, scope?, scope, h => by
    rw [ElseChain.mentions, admits_append, admits_append] at h
    rw [Eval.elseChain]
    refine eval_bind (eval_condition hcall h.1.1) fun holds => ?_
    cases holds with
    | true => exact eval_inBlock fun inner => inside_stmts hcall body inner (admits_of_scope h.1.2)
    | false => exact eval_elseChain hcall rest scope? scope h.2

theorem quiet_clauseAt (hcall : C.Answers s call) :
    ∀ (clauses : List SwitchClause) (scope : ScopeId) (i : Nat),
      C.Admits (SwitchClause.mentions clauses) → C.quiet (Eval.clauseAt s call scope clauses i)
  | [], scope, i, _ => by
    rw [Eval.clauseAt]
    exact C.obeys_pure _
  | .mk _ _ _ body :: rest, scope, i, h => by
    rw [SwitchClause.mentions, admits_append, admits_append] at h
    cases i with
    | zero =>
      rw [Eval.clauseAt]
      exact C.obeys_inScope fun inner => inside_stmts hcall body inner (admits_of_scope h.1.2)
    | succ i =>
      rw [Eval.clauseAt]
      exact quiet_clauseAt hcall rest scope i h.2

end

end

/-! ## Calls -/

/-- The shader mentions only types that may be laid out, wherever it runs something. -/
structure AdmitsShader (C : Conduct) (s : Shader) : Prop where
  functions : ∀ name f, s.function? name = some f → C.Admits f.mentions
  /-- The sizes of workgroups are evaluated as well. -/
  attributes : ∀ name f a e, s.function? name = some f → a ∈ f.attributes → e ∈ a.args →
    C.Admits e.mentions
  declarations : ∀ d ∈ s.program.declarations, C.Admits d.mentions
  members : ∀ d ∈ s.program.structs, ∀ m ∈ d.members, C.types m.type

/-- Where every type may be laid out, every shader is admitted. -/
theorem admitsShader_of_all (h : ∀ t, C.types t) (s : Shader) : C.AdmitsShader s where
  functions _ _ _ x _ := x.typed_of_all h
  attributes _ _ _ _ _ _ _ x _ := x.typed_of_all h
  declarations _ _ x _ := x.typed_of_all h
  members _ _ m _ := h m.type

theorem eval_returnValue {f : Function} (h : C.Admits f.mentions) (v : Value) :
    C.obeys scope? (Eval.returnValue f v).run := by
  simp only [Function.mentions, admits_append] at h
  unfold Eval.returnValue
  cases ht : f.returnType with
  | none => exact eval_pure _
  | some type =>
    simp only [ht, Option.elim, admits_cons] at h
    exact eval_bind (eval_typeInfo h.1.2.1) fun t => eval_lift _

theorem eval_callValue {f : Function} (h : C.Admits f.mentions) (flow : Flow) :
    C.obeys scope? (Eval.callValue f flow).run := by
  unfold Eval.callValue
  split
  · exact eval_returnValue h _
  · have marked : C.obeys scope? (modify fun m => { m with discarded := true } : Exec PUnit) :=
      obeys_modify ⟨fun _ _ => rfl, fun _ => rfl, fun _ => rfl, fun _ => rfl, fun _ => rfl,
        fun _ h => h, fun _ h => h⟩
    exact eval_bind (eval_ofExec marked) fun _ => eval_pure _
  · exact eval_pure _

/-- Opening the scope of a call, running a body in it and closing it again. -/
theorem eval_bindCall {f : Function} (h : C.Admits f.mentions) {args : List Value}
    {x : ScopeId → Exec α} (hx : ∀ scope, C.inside scope (x scope)) :
    C.obeys scope? (Eval.bindCall f args >>= fun scope =>
      Eval.ofExec (x scope >>= fun a => Exec.popScope scope >>= fun _ => pure a)).run := by
  simp only [Function.mentions, admits_append] at h
  unfold Eval.bindCall
  by_cases hl : args.length = f.args.length
  · rw [if_neg fun hne => hne hl]
    beta_reduce
    rw [bind_assoc]
    refine eval_bind (eval_mapM ?_) fun values => ?_
    · rintro ⟨param, v⟩ hp
      have typed : C.types param.type :=
        h.1.1 (.type param.type) (List.mem_map_of_mem (List.of_mem_zip hp).1)
      exact eval_bind (eval_typeInfo typed) fun t => eval_bind (eval_lift _) fun u => eval_pure _
    · rw [Eval.inScope_of_call]
      refine eval_ofExec (C.of_quiet (C.obeys_inScope fun inner => ?_))
      exact C.obeys_bind (obeys_forM fun _ _ => C.obeys_bindName _ _ _) fun _ => hx inner
  · rw [if_pos hl]
    exact eval_throw _

/-- Calls obey, however many may nest. -/
theorem answers_callWithin {s : Shader} (h : C.AdmitsShader s) (budget : Nat) :
    C.Answers s (Eval.callWithin s budget) := by
  induction budget with
  | zero => exact fun _ _ _ _ => eval_throw _
  | succ budget ih =>
    intro name f args hf
    have admitted := h.functions name f hf
    have body : C.Admits (Stmt.listMentions f.body) := by
      simp only [Function.mentions, admits_append] at admitted
      exact admits_of_block admitted.2
    rw [Eval.callWithin]
    refine eval_get (fun _ _ => rfl) fun m => ?_
    split
    · exact eval_throw _
    · rw [← bind_assoc]
      refine eval_bind (eval_bindCall admitted fun scope => ?_) fun flow =>
        eval_callValue admitted flow
      exact C.obeys_nested (inside_stmts ih f.body scope body)

theorem answers_call {s : Shader} (h : C.AdmitsShader s) : C.Answers s (Eval.call s) :=
  answers_callWithin h maxCallDepth

/-! ## Modules -/

section

variable {s : Shader} (h : C.AdmitsShader s) {config : Config}

include h

theorem eval_declareOverride {v : VarDecl} (hv : C.Admits v.mentions) :
    C.inside ScopeArena.root (Eval.declareOverride s config v).run := by
  have hcall := answers_call h
  have typed : ∀ t, v.type = some t → C.types t := by
    intro t ht
    simp only [VarDecl.mentions, ht, Option.elim, admits_append, admits_cons] at hv
    exact hv.1.2.1
  have valued : ∀ e, v.value = some e → C.Admits e.mentions := by
    intro e he
    simp only [VarDecl.mentions, he, Option.elim, admits_append] at hv
    exact hv.1.1
  have kind : C.inside ScopeArena.root (Eval.overrideKind? s v).run := by
    unfold Eval.overrideKind?
    split
    · exact eval_bind (eval_typeInfo (typed _ ‹_›)) fun t => eval_pure _
    · exact eval_bind (eval_expr hcall _ (valued _ ‹_›)) fun u => eval_pure _
    · exact eval_pure _
  have value : C.inside ScopeArena.root (Eval.overrideValue s config v).run := by
    unfold Eval.overrideValue
    split
    · exact eval_bind kind fun k => eval_pure _
    · split
      · exact eval_expr hcall _ (valued _ ‹_›)
      · exact eval_bind (eval_typeInfo (typed _ ‹_›)) fun t => eval_pure _
      · exact eval_pure _
  unfold Eval.declareOverride
  refine eval_bind value fun u => ?_
  have bound : ∀ u : Value,
      C.inside ScopeArena.root (Eval.ofExec (Exec.bind ScopeArena.root v.name (.value u))).run :=
    fun u => eval_ofExec (C.obeys_bindName _ _ _)
  split
  · exact eval_bind (eval_typeInfo (typed _ ‹_›)) fun t => eval_bind (eval_lift _) bound
  · exact bound u

omit h in
theorem obeys_reporting (line : Nat) {x : Eval Unit} (hx : C.obeys scope? x.run) :
    C.obeys scope? (Exec.reporting line x) := by
  refine C.obeys_bind hx fun outcome => ?_
  cases outcome with
  | ok _ => exact C.of_quiet (C.obeys_pure _)
  | error e => exact obeys_report _

theorem eval_declaration {d : Declaration} (hd : C.Admits d.mentions) :
    C.inside ScopeArena.root (Eval.declaration s config d).run := by
  have hcall := answers_call h
  cases d with
  | value kind v =>
    cases kind with
    | const => exact eval_declare hcall hd
    | override => exact eval_declareOverride h hd
    | var =>
      rw [Eval.declaration]
      split
      · have noted : C.inside ScopeArena.root
            (modify fun m => { m with moduleVars := m.moduleVars ++ [v] } : Exec PUnit) :=
          obeys_modify ⟨fun _ _ => rfl, fun _ => rfl, fun _ => rfl, fun _ => rfl, fun _ => rfl,
            fun m hm => List.forall_mem_append.2 ⟨hm, List.forall_mem_singleton.2 hd⟩, fun _ h => h⟩
        exact eval_bind (eval_ofExec noted) fun _ => eval_declare hcall hd
      · exact eval_pure _
  | constAssert e => exact eval_constAssert hcall hd
  | _ => exact eval_pure _

/-- Declarations at module scope bind names in the root. -/
theorem inside_declaration {d : Declaration} (hd : C.Admits d.mentions) :
    C.inside ScopeArena.root (Exec.declaration s config d) :=
  obeys_reporting d.line (eval_declaration h hd)

/-! ## Dispatches -/

theorem eval_workgroupSize {name : String} {f : Function} (hf : s.function? name = some f) :
    C.inside ScopeArena.root (Attempt.workgroupSize s f).run := by
  have axis : ∀ a ∈ f.attributes, ∀ e ∈ a.args,
      C.inside ScopeArena.root (Attempt.workgroupAxis s e).run := by
    intro a ha e he
    unfold Attempt.workgroupAxis
    have value : C.inside ScopeArena.root (Eval.expr s (Eval.call s) ScopeArena.root e).run :=
      eval_expr (answers_call h) e (h.attributes name f a e hf ha he)
    refine eval_bind (eval_ofExec (eval_bind value fun v => eval_lift _)) fun outcome => ?_
    cases outcome with
    | ok n => exact eval_pure _
    | error reason => exact eval_throw _
  unfold Attempt.workgroupSize
  cases ha : f.attribute? "workgroup_size" with
  | none => exact eval_throw _
  | some a =>
    have found : a ∈ f.attributes := List.mem_of_find?_eq_some ha
    refine eval_bind (eval_mapM fun e he => axis a found e (List.mem_of_mem_take he)) fun sizes => ?_
    split <;> exact eval_pure _

omit h in
theorem eval_builtinValue (name : String) :
    C.obeys scope? (Eval.builtinValue scope name).run := by
  refine eval_get (fun _ _ => rfl) fun m => ?_
  split
  · exact eval_pure _
  · exact eval_throw _

theorem eval_argument (depth : Nat) (attributes : List Attribute) {type : TypeExpr}
    (ht : C.types type) : C.obeys scope? (Eval.argument s scope depth attributes type).run := by
  induction depth generalizing attributes type with
  | zero =>
    rw [Eval.argument]
    exact eval_pure _
  | succ depth ih =>
    rw [Eval.argument]
    refine eval_bind (eval_typeInfo ht) fun t => ?_
    split
    · exact eval_bind (eval_builtinValue _) fun v => eval_lift _
    · split
      · rename_i d hd
        refine eval_bind (eval_mapM fun m hm => ?_) fun fields => eval_pure _
        have typed := h.members d (List.mem_of_find?_eq_some hd) m hm
        exact eval_bind (ih m.attributes typed) fun v => eval_pure _
      · exact eval_pure _

theorem inside_bindArgument {f : Function} (hf : C.Admits f.mentions) {arg : Field}
    (ha : arg ∈ f.args) : C.inside scope (Exec.bindArgument s f scope arg) := by
  simp only [Function.mentions, admits_append] at hf
  have typed : C.types arg.type := hf.1.1 (.type arg.type) (List.mem_map_of_mem ha)
  refine C.obeys_bind (eval_argument h _ arg.attributes typed) fun outcome => ?_
  cases outcome with
  | ok v => exact C.obeys_bindName _ _ _
  | error e => exact C.obeys_bind (obeys_report _) fun _ => C.obeys_bindName _ _ _

theorem inside_resetVariables (newWorkgroup : Bool) :
    C.inside ScopeArena.root (Exec.resetVariables s newWorkgroup) := by
  refine C.obeys_get (fun _ _ => rfl) fun m hm => obeys_forM fun v hv => ?_
  exact obeys_reporting v.line (eval_declare (answers_call h) (hm v (List.mem_filter.1 hv).1))

end

end Conduct

end Wgsl
