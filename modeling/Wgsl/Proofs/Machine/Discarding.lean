import Wgsl.Proofs.Machine.Stack
import Wgsl.Proofs.Machine.Surroundings
import Wgsl.Proofs.Value.Hollow

/-! # What may discard

A called function that discards leaves a mark on the machine, and the statement of the call goes on
with an empty value in its place. This module says what may leave that mark, in which order calls come
in a statement, and what becomes of the empty value.

* `Exec.Calm`: computations that discard nothing; all are calm that call no function.
* `Eval.Ordered`: how much two ways to answer calls have in common, when the calls come in a given
  order. It passes from the parts of an expression to the whole by appending the orders.
* `Shader.Surfaces`: expressions that have no truth value once a call in them has discarded.
-/

namespace Wgsl
set_option autoImplicit false

variable {α β : Type}

/-! ## Computations that discard nothing -/

/-- The computation discards nothing. -/
def Exec.Calm (x : Exec α) : Prop :=
  ∀ m a m₁, m.discarded = false → x m = .ok (a, m₁) → m₁.discarded = false

namespace Exec

theorem calm_pure (a : α) : Calm (pure a) := by
  intro m b m₁ hm h
  cases h
  exact hm

theorem calm_bind {x : Exec α} {f : α → Exec β} (hx : x.Calm) (hf : ∀ a, (f a).Calm) :
    (x >>= f).Calm := by
  intro m b m₂ hm h
  obtain ⟨a, m₁, h₁, h₂⟩ := bind_ok h
  exact hf a m₁ b m₂ (hx m a m₁ hm h₁) h₂

theorem calm_modifyGet {f : Machine → α × Machine} (hf : ∀ m, (f m).2.discarded = m.discarded) :
    Calm (modifyGet f : Exec α) := by
  intro m a m₁ hm h
  have ended : f m = (a, m₁) := Except.ok.inj h
  have kept := hf m
  rw [ended] at kept
  exact kept.trans hm

theorem calm_layout (x : LayoutM α) : (layout x).Calm := by
  intro m a m₁ hm h
  obtain ⟨l, -, rfl⟩ := layout_ok h
  exact hm

theorem calm_bindName (scope : ScopeId) (name : String) (slot : Slot) :
    Calm (bind scope name slot) :=
  calm_modifyGet fun _ => rfl

theorem calm_forM {F : β → Exec PUnit} (h : ∀ b, (F b).Calm) (l : List β) : Calm (l.forM F) := by
  induction l with
  | nil => exact calm_pure _
  | cons b l ih =>
    rw [List.forM_eq_forM, List.forM_cons]
    exact calm_bind (h b) fun _ => ih

end Exec

namespace Eval

theorem calm_pure (a : α) : Exec.Calm (pure a : Eval α).run := Exec.calm_pure _

theorem calm_throw (e : RunError) : Exec.Calm (throw e : Eval α).run := Exec.calm_pure _

theorem calm_lift (r : Run α) : Exec.Calm (liftM r : Eval α).run := by
  cases r with
  | ok a => exact calm_pure a
  | error e => exact calm_throw e

theorem calm_bind {x : Eval α} {f : α → Eval β} (hx : Exec.Calm x.run)
    (hf : ∀ a, Exec.Calm (f a).run) : Exec.Calm (x >>= f).run := by
  rw [ExceptT.run_bind]
  refine Exec.calm_bind hx fun outcome => ?_
  cases outcome with
  | ok a => exact hf a
  | error e => exact Exec.calm_pure _

theorem calm_ofExec {x : Exec α} (h : x.Calm) : Exec.Calm (ofExec x).run :=
  Exec.calm_bind h fun _ => Exec.calm_pure _

theorem calm_get {f : Machine → Eval α} (h : ∀ m, Exec.Calm (f m).run) :
    Exec.Calm (get >>= f : Eval α).run :=
  fun m a m₁ hm hrun => h m m a m₁ hm hrun

/-- Computations that only read. -/
theorem calm_of_read {x : Eval α} {r : Machine → Run α} (h : ∀ m, x.run m = .ok (r m, m)) :
    Exec.Calm x.run := by
  intro m a m₁ hm hrun
  rw [h] at hrun
  cases hrun
  exact hm

theorem calm_located (line : Nat) {x : Eval α} (h : Exec.Calm x.run) :
    Exec.Calm (located line x).run := by
  rw [run_located]
  exact Exec.calm_bind h fun _ => Exec.calm_pure _

theorem calm_typeInfo (t : TypeExpr) : Exec.Calm (typeInfo t).run :=
  calm_ofExec (Exec.calm_layout _)

theorem calm_mapM {F : β → Eval α} (h : ∀ b, Exec.Calm (F b).run) (l : List β) :
    Exec.Calm (l.mapM F).run := by
  induction l with
  | nil => exact calm_pure _
  | cons b l ih =>
    rw [List.mapM_cons]
    exact calm_bind (h b) fun a => calm_bind ih fun as => calm_pure _

/-! ### Built-in functions -/

theorem calm_readPlace (q : Place) : Exec.Calm (readPlace q).run := calm_of_read (readPlace_run q)

theorem calm_writePlace (q : Place) (v : Value) : Exec.Calm (writePlace q v).run := by
  refine Exec.calm_modifyGet (f := (Machine.writePlace q v).apply) fun m => ?_
  obtain ⟨root, path⟩ := q
  cases root with
  | buffer view => rfl
  | variable_ scope name =>
    cases hslot : m.scopes.findIn? scope name with
    | none => rw [Machine.writePlace_none hslot]
    | some slot =>
      cases slot with
      | value old => rw [Machine.writePlace_value hslot]; rfl
      | view view => rw [Machine.writePlace_view hslot]; rfl

theorem calm_onMemory (c : Change Memory α) : Exec.Calm (ofChange (Machine.onMemory c)).run :=
  Exec.calm_modifyGet (f := (Machine.onMemory c).apply) fun _ => rfl

theorem calm_texture (v : Value) : Exec.Calm (texture v).run := by
  unfold texture
  split
  · exact calm_get fun _ => calm_lift _
  · exact calm_throw _

theorem calm_textureStore (v : Value) (args : List Value) :
    Exec.Calm (textureStore v args).run := by
  unfold textureStore
  split
  · exact calm_throw _
  · refine calm_bind (calm_texture v) fun t => calm_bind (calm_lift _) fun coords => ?_
    cases v with
    | texture id => exact calm_bind (calm_onMemory _) fun _ => calm_pure _
    | _ => exact calm_throw _

theorem calm_compareExchange (q : Place) (expected new : Value) :
    Exec.Calm (compareExchange q expected new).run := by
  refine calm_bind (calm_readPlace q) fun old => calm_bind (calm_lift _) fun same => ?_
  refine calm_bind (calm_lift _) fun exchanged => ?_
  cases exchanged with
  | true => exact calm_bind (calm_writePlace q new) fun _ => calm_pure _
  | false => exact calm_pure _

theorem calm_atomic (update : Value → Value → Run Value) (q : Place) (v : Value) :
    Exec.Calm (atomic update q v).run := by
  refine calm_bind (calm_readPlace q) fun old => calm_bind (calm_lift _) fun new => ?_
  exact calm_bind (calm_writePlace q new) fun _ => calm_pure _

theorem calm_callMemory (name : String) (args : List Value) :
    Exec.Calm (callMemory name args).run := by
  unfold callMemory
  split
  · refine calm_bind (calm_lift _) fun q => calm_get fun m => ?_
    exact calm_bind (calm_lift _) fun n => calm_pure _
  · exact calm_bind (calm_lift _) calm_readPlace
  · exact calm_bind (calm_lift _) calm_readPlace
  · exact calm_bind (calm_lift _) fun q => calm_bind (calm_writePlace q _) fun _ => calm_pure _
  · exact calm_bind (calm_lift _) fun q => calm_compareExchange q _ _
  · exact calm_bind (calm_texture _) fun t => calm_pure _
  · exact calm_bind (calm_texture _) fun t => calm_pure _
  · exact calm_bind (calm_texture _) fun t => calm_bind (calm_lift _) fun coords => calm_lift _
  · exact calm_textureStore _ _
  · split
    · exact calm_bind (calm_lift _) fun q => calm_atomic _ q _
    · exact calm_throw _
  · exact calm_throw _

theorem calm_callBuiltin (name : String) (args : List Value) :
    Exec.Calm (callBuiltin name args).run := by
  refine calm_bind (calm_lift _) fun _ => ?_
  split
  · exact calm_lift _
  · exact calm_callMemory name args

theorem calm_castKind (t : TypeExpr) : Exec.Calm (castKind t).run := by
  refine calm_bind (calm_typeInfo t) fun info => ?_
  split
  · exact calm_pure _
  · exact calm_throw _

theorem calm_bindCall (f : Function) (args : List Value) : Exec.Calm (bindCall f args).run := by
  unfold bindCall
  split
  · exact calm_throw _
  · refine calm_bind (calm_mapM (fun p => ?_) _) fun values => calm_ofExec ?_
    · exact calm_bind (calm_typeInfo _) fun t => calm_bind (calm_lift _) fun v => calm_pure _
    · refine Exec.calm_bind (Exec.calm_modifyGet fun _ => rfl) fun scope => ?_
      exact Exec.calm_bind (Exec.calm_forM (fun _ => Exec.calm_bindName _ _ _) _) fun _ =>
        Exec.calm_pure _

theorem calm_returnValue (f : Function) (v : Value) : Exec.Calm (returnValue f v).run := by
  unfold returnValue
  split
  · exact calm_bind (calm_typeInfo _) fun t => calm_lift _
  · exact calm_pure _

end Eval

/-! ## The order of calls -/

mutual

/-- The declared functions that an expression calls, in the order of the calls. An operand that is
not evaluated counts as well. -/
def Expr.callOrder (s : Shader) : Expr → List String
  | .literal .. => []
  | .var .. => []
  | .binary _ _ lhs rhs => lhs.callOrder s ++ rhs.callOrder s
  | .unary _ _ operand => operand.callOrder s
  | .call _ name args =>
    Expr.listCallOrder s args ++ if (s.function? name).isSome then [name] else []
  | .construct _ _ args => Expr.listCallOrder s args
  | .bitcast _ _ value => value.callOrder s
  | .index _ base i => base.callOrder s ++ i.callOrder s
  | .member _ base _ => base.callOrder s
  | .group _ inner => inner.callOrder s

def Expr.listCallOrder (s : Shader) : List Expr → List String
  | [] => []
  | e :: rest => e.callOrder s ++ Expr.listCallOrder s rest

end

/-- The declared functions that a simple statement calls, in the order of the calls. -/
def Action.callOrder (s : Shader) : Action → List String
  | .declare _ v => v.value.elim [] (Expr.callOrder s)
  | .assign _ target value => target.elim [] (Expr.callOrder s) ++ value.callOrder s
  | .increment _ target => target.callOrder s
  | .call callee => callee.callOrder s

/-- The declared functions that the selectors of clauses call, in the order of the calls. -/
def SwitchClause.callOrder (s : Shader) (clauses : List SwitchClause) : List String :=
  clauses.flatMap fun c => Expr.listCallOrder s c.selectors

/-- What two computations have in common that differ only in how they answer calls of declared
functions, and that call these functions at most, in this order. Some functions are risky: they may
discard. -/
structure Eval.Ordered (risky : String → Prop) (order : List String) (x x' : Eval α) : Prop where
  same : order = [] → x' = x
  calm : (∀ n ∈ order, ¬risky n) → Exec.Calm x.run
  /-- Only the last call is risky. -/
  agrees : (∀ n ∈ order.dropLast, ¬risky n) → ∀ m, m.discarded = false → x'.run m = x.run m

namespace Eval

variable {risky : String → Prop} {order order' : List String} {x x' : Eval α} {f f' : α → Eval β}

theorem ordered_refl (h : Exec.Calm x.run) : Ordered risky order x x where
  same _ := rfl
  calm _ := h
  agrees _ _ _ := rfl

theorem Ordered.bind (hx : Ordered risky order x x') (hf : ∀ a, Ordered risky order' (f a) (f' a)) :
    Ordered risky (order ++ order') (x >>= f) (x' >>= f') where
  same h := by
    obtain ⟨ho, ho'⟩ := List.append_eq_nil_iff.1 h
    have continued : f' = f := funext fun a => (hf a).same ho'
    rw [hx.same ho, continued]
  calm h := by
    obtain ⟨ho, ho'⟩ := List.forall_mem_append.1 h
    exact calm_bind (hx.calm ho) fun a => (hf a).calm ho'
  agrees h m hm := by
    rw [ExceptT.run_bind, ExceptT.run_bind]
    change (x'.run m >>= _) = (x.run m >>= _)
    obtain rfl | hne := eq_or_ne order' []
    · rw [List.append_nil] at h
      have continued : f' = f := funext fun a => (hf a).same rfl
      rw [hx.agrees h m hm, continued]
    · rw [List.dropLast_append_of_ne_nil hne, List.forall_mem_append] at h
      rw [hx.agrees (fun n hn => h.1 n (List.mem_of_mem_dropLast hn)) m hm]
      cases hrun : x.run m with
      | error fault => rfl
      | ok r =>
        obtain ⟨outcome, m₁⟩ := r
        cases outcome with
        | error e => rfl
        | ok a => exact (hf a).agrees h.2 m₁ (hx.calm h.1 m _ m₁ hm hrun)

/-- What follows calls nothing. -/
theorem Ordered.bind_calm (hx : Ordered risky order x x') (hf : ∀ a, Exec.Calm (f a).run) :
    Ordered risky order (x >>= f) (x' >>= f) := by
  have whole : Ordered risky (order ++ []) (x >>= f) (x' >>= f) :=
    hx.bind fun a => ordered_refl (hf a)
  rwa [List.append_nil] at whole

/-- What comes before calls nothing. -/
theorem Ordered.after (hx : Exec.Calm x.run) (hf : ∀ a, Ordered risky order (f a) (f' a)) :
    Ordered risky order (x >>= f) (x >>= f') := by
  have first : Ordered risky [] x x := ordered_refl hx
  exact first.bind hf

theorem Ordered.located (line : Nat) (h : Ordered risky order x x') :
    Ordered risky order (located line x) (located line x') where
  same ho := by rw [h.same ho]
  calm ho := calm_located line (h.calm ho)
  agrees ho m hm := by
    rw [run_located, run_located]
    change (x'.run m >>= _) = (x.run m >>= _)
    rw [h.agrees ho m hm]

theorem Ordered.get {f f' : Machine → Eval α} (h : ∀ m, Ordered risky order (f m) (f' m)) :
    Ordered risky order (get >>= f) (get >>= f') where
  same ho := by rw [show f' = f from funext fun m => (h m).same ho]
  calm ho := calm_get fun m => (h m).calm ho
  agrees ho m hm := (h m).agrees ho m hm

/-- Two ways to answer calls of declared functions. -/
def AnswersOrdered (s : Shader) (risky : String → Prop) (call call' : Caller) : Prop :=
  ∀ name f args, s.function? name = some f → Ordered risky [name] (call f args) (call' f args)

section

variable {s : Shader} {call call' : Caller} {scope : ScopeId}

theorem ordered_callNamed (hcall : AnswersOrdered s risky call call') (name : String)
    (args : List Value) : Ordered risky (if (s.function? name).isSome then [name] else [])
      (callNamed s call name args) (callNamed s call' name args) := by
  unfold callNamed
  cases hf : s.function? name with
  | some f => exact hcall name f args hf
  | none =>
    refine Ordered.after (calm_ofExec (Exec.calm_layout _)) fun t? => ?_
    cases t? with
    | some t => exact ordered_refl (calm_lift _)
    | none => exact ordered_refl (calm_callBuiltin name args)

/-- The second operand is not always evaluated. -/
theorem Ordered.shortcut {y y' : Eval Value} (h : Ordered risky order y y') (op : BinaryOp)
    (l : Value) :
    Ordered risky order
      (match op, l with
      | .logicalAnd, .bool false => return .bool false
      | .logicalOr, .bool true => return .bool true
      | _, _ => do Value.binary op l (← y))
      (match op, l with
      | .logicalAnd, .bool false => return .bool false
      | .logicalOr, .bool true => return .bool true
      | _, _ => do Value.binary op l (← y')) := by
  split
  · exact ordered_refl (calm_pure _)
  · exact ordered_refl (calm_pure _)
  · exact h.bind_calm fun r => calm_lift _

/-- Expressions that name no place. -/
theorem ordered_placeless {e : Expr}
    (h : ∀ call, place s call scope e = throw (.mismatch "expression is not assignable")) :
    Ordered risky order (place s call scope e) (place s call' scope e) := by
  rw [h, h]
  exact ordered_refl (calm_throw _)

mutual

theorem ordered_expr (hcall : AnswersOrdered s risky call call') : ∀ e : Expr,
    Ordered risky (e.callOrder s) (expr s call scope e) (expr s call' scope e)
  | .literal _ value => by
    rw [expr, expr]
    exact ordered_refl (calm_pure _)
  | .var k name => by
    rw [expr, expr]
    exact ordered_refl (calm_located k.line (calm_of_read (readName_run scope name)))
  | .binary k op lhs rhs => by
    rw [expr, expr, Expr.callOrder]
    refine .located k.line ((ordered_expr hcall lhs).bind fun l => ?_)
    exact (ordered_expr hcall rhs).shortcut op l
  | .unary k op operand => by
    rw [Expr.callOrder]
    cases op with
    | addressOf =>
      rw [expr, expr]
      exact .located k.line ((ordered_place hcall operand).bind_calm fun q => calm_pure _)
    | deref =>
      rw [expr, expr]
      refine .located k.line ((ordered_expr hcall operand).bind_calm fun v => ?_)
      exact calm_bind (calm_lift _) calm_readPlace
    | _ =>
      rw [expr, expr]
      · exact .located k.line ((ordered_expr hcall operand).bind_calm fun v => calm_lift _)
      all_goals nofun
  | .call k name args => by
    rw [expr, expr, Expr.callOrder]
    refine .located k.line (.get fun m => ?_)
    cases m.callResults.lookup k.id with
    | some v => exact ordered_refl (calm_pure _)
    | none => exact (ordered_exprs hcall args).bind fun vs => ordered_callNamed hcall name vs
  | .construct k type args => by
    rw [expr, expr, Expr.callOrder]
    refine .located k.line ((ordered_exprs hcall args).bind_calm fun vs => ?_)
    exact calm_bind (calm_typeInfo _) fun t => calm_lift _
  | .bitcast k type value => by
    rw [expr, expr, Expr.callOrder]
    refine .located k.line (.after (calm_castKind type) fun kind => ?_)
    exact (ordered_expr hcall value).bind_calm fun v => calm_lift _
  | .index k base index => by
    rw [expr, expr, Expr.callOrder]
    refine .located k.line ?_
    split
    · refine (ordered_place hcall base).bind fun q => ?_
      exact (ordered_expr hcall index).bind_calm fun v => calm_bind (calm_lift _) fun i =>
        calm_readPlace _
    · refine (ordered_expr hcall base).bind fun v => ?_
      exact (ordered_expr hcall index).bind_calm fun u => calm_bind (calm_lift _) fun i =>
        calm_lift _
  | .member k base name => by
    rw [expr, expr, Expr.callOrder]
    refine .located k.line ?_
    split
    · exact (ordered_place hcall base).bind_calm fun q => calm_readPlace _
    · exact (ordered_expr hcall base).bind_calm fun v => calm_lift _
  | .group k e => by
    rw [expr, expr, Expr.callOrder]
    exact .located k.line (ordered_expr hcall e)

theorem ordered_exprs (hcall : AnswersOrdered s risky call call') : ∀ es : List Expr,
    Ordered risky (Expr.listCallOrder s es) (exprs s call scope es) (exprs s call' scope es)
  | [] => by
    rw [exprs, exprs]
    exact ordered_refl (calm_pure _)
  | e :: rest => by
    rw [exprs, exprs, Expr.listCallOrder]
    exact (ordered_expr hcall e).bind fun v => (ordered_exprs hcall rest).bind_calm fun vs =>
      calm_pure _

theorem ordered_place (hcall : AnswersOrdered s risky call call') : ∀ e : Expr,
    Ordered risky (e.callOrder s) (place s call scope e) (place s call' scope e)
  | .var k name => by
    rw [place, place]
    exact ordered_refl (calm_of_read (placeOfName_run scope name k.line))
  | .index _ base index => by
    rw [place, place, Expr.callOrder]
    refine (ordered_place hcall base).bind fun q => ?_
    exact (ordered_expr hcall index).bind_calm fun v => calm_bind (calm_lift _) fun i => calm_pure _
  | .member _ base name => by
    rw [place, place, Expr.callOrder]
    exact (ordered_place hcall base).bind_calm fun q => calm_pure _
  | .group _ e => by
    rw [place, place, Expr.callOrder]
    exact ordered_place hcall e
  | .unary _ op operand => by
    rw [Expr.callOrder]
    cases op with
    | deref =>
      rw [place, place]
      exact (ordered_expr hcall operand).bind_calm fun v => calm_lift _
    | _ => exact ordered_placeless fun call => by rw [place]; all_goals nofun
  | .literal .. => ordered_placeless fun call => by rw [place]; all_goals nofun
  | .binary .. => ordered_placeless fun call => by rw [place]; all_goals nofun
  | .call .. => ordered_placeless fun call => by rw [place]; all_goals nofun
  | .construct .. => ordered_placeless fun call => by rw [place]; all_goals nofun
  | .bitcast .. => ordered_placeless fun call => by rw [place]; all_goals nofun

end

theorem ordered_initialValue (hcall : AnswersOrdered s risky call call') (v : VarDecl) :
    Ordered risky (v.value.elim [] (Expr.callOrder s)) (initialValue s call scope v)
      (initialValue s call' scope v) := by
  unfold initialValue
  cases v.type <;> cases v.value
  · exact ordered_refl (calm_throw _)
  · exact ordered_expr hcall _
  · exact ordered_refl (calm_bind (calm_typeInfo _) fun t => calm_pure _)
  · refine .after (calm_typeInfo _) fun t => ?_
    exact (ordered_expr hcall _).bind_calm fun u => calm_lift _

/-- What is done with the outcome calls nothing. -/
theorem Ordered.then {k : Run α → Exec (Run β)} (h : Ordered risky order x x')
    (hk : ∀ r, (k r).Calm) :
    Ordered risky order (ExceptT.mk (x.run >>= k)) (ExceptT.mk (x'.run >>= k)) where
  same ho := by rw [h.same ho]
  calm ho := Exec.calm_bind (h.calm ho) hk
  agrees ho m hm := by
    change (x'.run m >>= _) = (x.run m >>= _)
    rw [h.agrees ho m hm]

theorem ordered_action (hcall : AnswersOrdered s risky call call') (a : Action) :
    Ordered risky (a.callOrder s) (action s call scope a) (action s call' scope a) := by
  cases a with
  | declare kind v =>
    refine (ordered_initialValue hcall v).then fun outcome => ?_
    cases outcome with
    | ok value => exact Exec.calm_bind (Exec.calm_bindName _ _ _) fun _ => Exec.calm_pure _
    | error e => exact Exec.calm_bind (Exec.calm_bindName _ _ _) fun _ => Exec.calm_pure _
  | assign op target value =>
    cases target with
    | none => exact (ordered_expr hcall value).bind_calm fun v => calm_pure _
    | some target =>
      refine (ordered_place hcall target).bind fun q =>
        (ordered_expr hcall value).bind_calm fun v => ?_
      cases op with
      | plain => exact calm_writePlace q v
      | compound op =>
        refine calm_bind (calm_readPlace q) fun old => calm_bind (calm_lift _) fun new => ?_
        exact calm_writePlace q new
  | increment op target =>
    refine (ordered_place hcall target).bind_calm fun q => ?_
    refine calm_bind (calm_readPlace q) fun old => calm_bind (calm_lift _) fun new => ?_
    exact calm_writePlace q new
  | call callee => exact (ordered_expr hcall callee).bind_calm fun v => calm_pure _

end

end Eval

/-! ## Expressions without a truth -/

/-- Expressions in which only the last call is risky, and in which that call is an operand of
operators at most: when it has discarded, the expression has no truth. -/
inductive Expr.Surfaces (s : Shader) (risky : String → Prop) : Expr → Prop
  | calm {e : Expr} : (∀ n ∈ e.callOrder s, ¬risky n) → Surfaces s risky e
  | call {k : Mark} {name : String} {args : List Expr} : (s.function? name).isSome →
    (∀ n ∈ Expr.listCallOrder s args, ¬risky n) → Surfaces s risky (.call k name args)
  | group {k : Mark} {e : Expr} : Surfaces s risky e → Surfaces s risky (.group k e)
  | unary {k : Mark} {op : UnaryOp} {e : Expr} : op ≠ .addressOf → op ≠ .deref →
    Surfaces s risky e → Surfaces s risky (.unary k op e)
  | left {k : Mark} {op : BinaryOp} {lhs rhs : Expr} : Surfaces s risky lhs →
    rhs.callOrder s = [] → Surfaces s risky (.binary k op lhs rhs)
  | right {k : Mark} {op : BinaryOp} {lhs rhs : Expr} : (∀ n ∈ lhs.callOrder s, ¬risky n) →
    Surfaces s risky rhs → Surfaces s risky (.binary k op lhs rhs)

theorem Expr.Surfaces.last {s : Shader} {risky : String → Prop} {e : Expr}
    (h : e.Surfaces s risky) : ∀ n ∈ (e.callOrder s).dropLast, ¬risky n := by
  induction h with
  | calm h => exact fun n hn => h n (List.mem_of_mem_dropLast hn)
  | call hf h =>
    rw [Expr.callOrder, if_pos hf, List.dropLast_concat]
    exact h
  | group _ ih =>
    rw [Expr.callOrder]
    exact ih
  | unary _ _ _ ih =>
    rw [Expr.callOrder]
    exact ih
  | left _ hr ih =>
    rw [Expr.callOrder, hr, List.append_nil]
    exact ih
  | @right _ _ lhs rhs hl _ ih =>
    rw [Expr.callOrder]
    obtain hr | hr := eq_or_ne (rhs.callOrder s) []
    · rw [hr, List.append_nil]
      exact fun n hn => hl n (List.mem_of_mem_dropLast hn)
    · rw [List.dropLast_append_of_ne_nil hr]
      exact List.forall_mem_append.2 ⟨hl, ih⟩

namespace Eval

/-- Every value that the computation can have is hollow. -/
def Hollows (x : Eval Value) : Prop :=
  ∀ m v m₁, x.run m = .ok (.ok v, m₁) → v.Hollow

/-- Once the computation has discarded, its value is hollow. -/
def Muted (x : Eval Value) : Prop :=
  ∀ m v m₁, m.discarded = false → x.run m = .ok (.ok v, m₁) → m₁.discarded = true → v.Hollow

variable {x : Eval Value} {f : Value → Eval Value}

theorem muted_of_calm (h : Exec.Calm x.run) : Muted x := by
  intro m v m₁ hm hrun hd
  rw [h m _ m₁ hm hrun] at hd
  cases hd

theorem run_bind_ok {x : Eval α} {f : α → Eval β} {m m₂ : Machine} {b : β}
    (h : (x >>= f).run m = .ok (.ok b, m₂)) :
    ∃ a m₁, x.run m = .ok (.ok a, m₁) ∧ (f a).run m₁ = .ok (.ok b, m₂) := by
  rw [ExceptT.run_bind] at h
  obtain ⟨outcome, m₁, h₁, h₂⟩ := Exec.bind_ok h
  cases outcome with
  | ok a => exact ⟨a, m₁, h₁, h₂⟩
  | error e => cases h₂

theorem muted_bind {x : Eval α} {f : α → Eval Value} (hx : Exec.Calm x.run)
    (hf : ∀ a, Muted (f a)) : Muted (x >>= f) := by
  intro m v m₂ hm hrun
  obtain ⟨a, m₁, h₁, h₂⟩ := run_bind_ok hrun
  exact hf a m₁ v m₂ (hx m _ m₁ hm h₁) h₂

/-- What makes hollow values of hollow values, and discards nothing itself. -/
theorem Muted.bind (hx : Muted x) (hf : ∀ v, Exec.Calm (f v).run)
    (hollow : ∀ v, v.Hollow → Hollows (f v)) : Muted (x >>= f) := by
  intro m u m₂ hm hrun hd
  obtain ⟨v, m₁, h₁, h₂⟩ := run_bind_ok hrun
  cases hd₁ : m₁.discarded with
  | true => exact hollow v (hx m v m₁ hm h₁ hd₁) m₁ u m₂ h₂
  | false =>
    rw [hf v m₁ _ m₂ hd₁ h₂] at hd
    cases hd

theorem Muted.located (line : Nat) (h : Muted x) : Muted (located line x) := by
  intro m v m₁ hm hrun
  rw [run_located] at hrun
  obtain ⟨outcome, m₂, h₁, h₂⟩ := Exec.bind_ok hrun
  cases outcome with
  | ok u =>
    cases h₂
    exact h m v m₁ hm h₁
  | error e => cases h₂

theorem hollows_lift {r : Run Value} (h : ∀ v, r = .ok v → v.Hollow) : Hollows (liftM r) := by
  intro m v m₁ hrun
  cases r with
  | error e => cases hrun
  | ok u =>
    cases hrun
    exact h v rfl

section

variable {s : Shader} {risky : String → Prop} {call : Caller} {scope : ScopeId}

/-- What becomes of a hollow first operand. -/
theorem hollows_shortcut {y : Eval Value} (op : BinaryOp) (l : Value) :
    l.Hollow → Hollows (match op, l with
      | .logicalAnd, .bool false => return .bool false
      | .logicalOr, .bool true => return .bool true
      | _, _ => do Value.binary op l (← y)) := by
  intro h
  split
  · cases h
  · cases h
  · intro m u m₂ hrun
    obtain ⟨r, m₁, -, h₂⟩ := run_bind_ok hrun
    exact hollows_lift (fun v => Value.hollow_binary (.inl h)) m₁ u m₂ h₂

/-- An expression in which a risky call surfaces has no truth after a discard. -/
theorem muted_expr {call' : Caller} (hcall : AnswersOrdered s risky call call')
    (hmuted : ∀ name f args, s.function? name = some f → Muted (call f args)) {e : Expr}
    (h : e.Surfaces s risky) : Muted (expr s call scope e) := by
  have ordered : ∀ e : Expr, Ordered risky (e.callOrder s) (expr s call scope e)
      (expr s call' scope e) := ordered_expr hcall
  induction h with
  | @calm e h => exact muted_of_calm ((ordered e).calm h)
  | @call k name args hf h =>
    obtain ⟨f, hf⟩ := Option.isSome_iff_exists.1 hf
    rw [expr]
    refine .located k.line fun m v m₁ hm hrun => ?_
    cases hl : m.callResults.lookup k.id with
    | some u =>
      rw [get_bind_run, hl] at hrun
      exact muted_of_calm (calm_pure u) m v m₁ hm hrun
    | none =>
      rw [get_bind_run, hl] at hrun
      refine muted_bind ((ordered_exprs hcall args).calm h) (fun vs => ?_) m v m₁ hm hrun
      unfold callNamed
      rw [hf]
      exact hmuted name f vs hf
  | @group k e _ ih =>
    rw [expr]
    exact ih.located k.line
  | @unary k op e ha hd _ ih =>
    rw [expr]
    · refine .located k.line (ih.bind (fun v => calm_lift _) fun v hv => ?_)
      exact hollows_lift fun u => Value.hollow_unary hv
    · exact ha
    · exact hd
  | @left k op lhs rhs _ hr ih =>
    have calm : Exec.Calm (expr s call scope rhs).run := by
      refine (ordered rhs).calm fun n hn => ?_
      rw [hr] at hn
      cases hn
    rw [expr]
    refine .located k.line (ih.bind (fun l => ?_) (hollows_shortcut op))
    split
    · exact calm_pure _
    · exact calm_pure _
    · exact calm_bind calm fun r => calm_lift _
  | @right k op lhs rhs hl _ ih =>
    rw [expr]
    refine .located k.line (muted_bind ((ordered lhs).calm hl) fun l => ?_)
    split
    · exact muted_of_calm (calm_pure _)
    · exact muted_of_calm (calm_pure _)
    · refine ih.bind (fun r => calm_lift _) fun r hr => ?_
      exact hollows_lift fun u => Value.hollow_binary (.inr hr)

/-! ## Selecting a clause -/

theorem ordered_isSelected {call' : Caller} (hcall : AnswersOrdered s risky call call')
    (selector : Value) (es : List Expr) :
    Ordered risky (Expr.listCallOrder s es) (isSelected s call scope selector es)
      (isSelected s call' scope selector es) := by
  induction es with
  | nil =>
    rw [isSelected, isSelected]
    exact ordered_refl (calm_pure _)
  | cons e rest ih =>
    rw [isSelected, isSelected, Expr.listCallOrder]
    refine (ordered_expr hcall e).bind fun v => .after (calm_lift _) fun same => ?_
    refine .after (calm_lift _) fun holds => ?_
    cases holds with
    | true => exact ordered_refl (calm_pure _)
    | false => exact ih

theorem ordered_selected? {call' : Caller} (hcall : AnswersOrdered s risky call call')
    (selector : Value) (clauses : List SwitchClause) :
    Ordered risky (SwitchClause.callOrder s clauses) (selected? s call scope selector clauses)
      (selected? s call' scope selector clauses) := by
  induction clauses with
  | nil =>
    rw [selected?, selected?]
    exact ordered_refl (calm_pure _)
  | cons c rest ih =>
    rw [selected?, selected?, SwitchClause.callOrder, List.flatMap_cons]
    refine (ordered_isSelected hcall selector c.selectors).bind fun found => ?_
    cases found with
    | true =>
      rw [if_pos rfl, if_pos rfl]
      exact ordered_refl (calm_pure _)
    | false =>
      rw [if_neg Bool.false_ne_true, if_neg Bool.false_ne_true]
      exact ih.bind_calm fun i => calm_pure _

/-- No selector is compared with a value that has no truth. -/
theorem selectors_of_isSelected {selector : Value} (h : selector.Hollow) {es : List Expr}
    {m m₁ : Machine} {b : Bool}
    (hrun : (isSelected s call scope selector es).run m = .ok (.ok b, m₁)) : es = [] := by
  cases es with
  | nil => rfl
  | cons e rest =>
    rw [isSelected] at hrun
    obtain ⟨v, m₂, -, h₂⟩ := run_bind_ok hrun
    obtain ⟨u, m₃, hu, h₃⟩ := run_bind_ok h₂
    obtain ⟨holds, m₄, ht, -⟩ := run_bind_ok h₃
    have hollow : u.Hollow := hollows_lift (fun w => Value.hollow_binary (.inl h)) _ _ _ hu
    cases htruth : u.truth with
    | ok b => exact absurd htruth (Value.truth_hollow hollow b)
    | error e =>
      rw [htruth] at ht
      cases ht

theorem selectors_of_selected? {selector : Value} (h : selector.Hollow)
    {clauses : List SwitchClause} {m m₁ : Machine} {i : Option Nat}
    (hrun : (selected? s call scope selector clauses).run m = .ok (.ok i, m₁)) :
    ∀ c ∈ clauses, c.selectors = [] := by
  induction clauses generalizing m m₁ i with
  | nil => nofun
  | cons c rest ih =>
    rw [selected?] at hrun
    obtain ⟨found, m₂, hc, hrest⟩ := run_bind_ok hrun
    have none := selectors_of_isSelected h hc
    refine List.forall_mem_cons.2 ⟨none, ?_⟩
    rw [none, isSelected] at hc
    cases hc
    obtain ⟨j, m₃, hj, -⟩ := run_bind_ok hrest
    exact ih hj

end

end Eval

end Wgsl
