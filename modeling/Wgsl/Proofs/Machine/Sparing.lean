import Wgsl.Proofs.Machine.Holdings

/-! # Expressions that change no name

An expression changes what a name is bound to in two ways only: it calls a declared function, or an
atomic function that writes through a pointer. All others leave the scopes as they are.

* `Mention.Sparing`: a call is of neither kind.
* `Exec.LeavesScopes`: computations that leave the scopes as they are.
* `Eval.leaves_expr`: by induction over the expression.
* `Exec.sparing_declaration`: a declaration whose expressions are such changes its own name only.
-/

namespace Wgsl
set_option autoImplicit false

/-- The name of the value that is declared. -/
def Declaration.valueName? : Declaration → Option String
  | .value _ v => some v.name
  | _ => none

/-- Whether a built-in function writes through a pointer. -/
def Builtin.writes (name : String) : Bool :=
  name = "atomicStore" || name = "atomicCompareExchangeWeak" || (Eval.atomicUpdate? name).isSome

/-- A call is of no declared function, and of none that writes through a pointer. -/
def Mention.Sparing (s : Shader) : Mention → Prop
  | .call name => s.function? name = none ∧ Builtin.writes name = false
  | _ => True

/-- The computation leaves the scopes as they are, wherever it ends. -/
def Exec.LeavesScopes {α : Type} (x : Exec α) : Prop := x.Keeps fun m m₁ => m₁.scopes = m.scopes

variable {α β : Type}

namespace Exec

theorem leaves_pure (a : α) : LeavesScopes (pure a) := by
  intro m b m₁ hrun
  cases hrun
  rfl

theorem leaves_bind {x : Exec α} {f : α → Exec β} (hx : LeavesScopes x)
    (hf : ∀ a, LeavesScopes (f a)) : LeavesScopes (x >>= f) := by
  intro m b m₂ hrun
  obtain ⟨a, m₁, h₁, h₂⟩ := bind_ok hrun
  exact (hf a m₁ b m₂ h₂).trans (hx m a m₁ h₁)

theorem leaves_layout (x : LayoutM α) : LeavesScopes (layout x) := by
  intro m a m₁ hrun
  obtain ⟨l, -, rfl⟩ := layout_ok hrun
  rfl

end Exec

namespace Eval

theorem leaves_pure (a : α) : (pure a : Eval α).run.LeavesScopes := Exec.leaves_pure _

theorem leaves_throw (e : RunError) : (throw e : Eval α).run.LeavesScopes := Exec.leaves_pure _

theorem leaves_lift (r : Run α) : (liftM r : Eval α).run.LeavesScopes := by
  cases r with
  | ok a => exact leaves_pure a
  | error e => exact leaves_throw e

theorem leaves_bind {x : Eval α} {f : α → Eval β} (hx : x.run.LeavesScopes)
    (hf : ∀ a, (f a).run.LeavesScopes) : (x >>= f).run.LeavesScopes := by
  rw [ExceptT.run_bind]
  refine Exec.leaves_bind hx fun r => ?_
  cases r with
  | ok a => exact hf a
  | error e => exact Exec.leaves_pure _

theorem leaves_get {f : Machine → Eval α} (h : ∀ m, (f m).run.LeavesScopes) :
    (get >>= f : Eval α).run.LeavesScopes :=
  fun m a m₁ hrun => h m m a m₁ hrun

theorem leaves_located (line : Nat) {x : Eval α} (h : x.run.LeavesScopes) :
    (located line x).run.LeavesScopes := by
  rw [run_located]
  exact Exec.leaves_bind h fun _ => Exec.leaves_pure _

theorem leaves_typeInfo (t : TypeExpr) : (typeInfo t).run.LeavesScopes :=
  Exec.leaves_bind (Exec.leaves_layout _) fun _ => Exec.leaves_pure _

theorem leaves_structInfo (name : String) : (structInfo? name).run.LeavesScopes :=
  Exec.leaves_bind (Exec.leaves_layout _) fun _ => Exec.leaves_pure _

theorem leaves_readPlace (q : Place) : (readPlace q).run.LeavesScopes :=
  leaves_get fun _ => leaves_lift _

/-! ## Built-in functions -/

theorem leaves_texture (v : Value) : (texture v).run.LeavesScopes := by
  unfold texture
  split
  · exact leaves_get fun _ => leaves_lift _
  · exact leaves_throw _

theorem leaves_textureStore (v : Value) (args : List Value) :
    (textureStore v args).run.LeavesScopes := by
  unfold textureStore
  split
  · exact leaves_throw _
  · refine leaves_bind (leaves_texture v) fun t => leaves_bind (leaves_lift _) fun coords => ?_
    split
    · refine leaves_bind (fun m a m₁ hrun => ?_) fun _ => leaves_pure _
      -- memory alone is changed
      cases hrun
      rfl
    · exact leaves_throw _

theorem leaves_callMemory {name : String} (h : Builtin.writes name = false) (args : List Value) :
    (callMemory name args).run.LeavesScopes := by
  unfold callMemory
  split
  · exact leaves_bind (leaves_lift _) fun q => leaves_get fun m =>
      leaves_bind (leaves_lift _) fun n => leaves_pure _
  · exact leaves_bind (leaves_lift _) leaves_readPlace
  · exact leaves_bind (leaves_lift _) leaves_readPlace
  · exact absurd h (by decide)
  · exact absurd h (by decide)
  · exact leaves_bind (leaves_texture _) fun t => leaves_pure _
  · exact leaves_bind (leaves_texture _) fun t => leaves_pure _
  · exact leaves_bind (leaves_texture _) fun t => leaves_bind (leaves_lift _) fun coords =>
      leaves_lift _
  · exact leaves_textureStore _ _
  · split
    · rename_i hupdate
      rw [Builtin.writes, hupdate, Option.isSome_some, Bool.or_true] at h
      cases h
    · exact leaves_throw _
  · exact leaves_throw _

/-! ## Expressions -/

section

variable {s : Shader} {call : Caller} {scope : ScopeId}

theorem leaves_callNamed {name : String} (h : (Mention.call name).Sparing s) (args : List Value) :
    (callNamed s call name args).run.LeavesScopes := by
  unfold callNamed
  rw [h.1]
  refine leaves_bind (leaves_structInfo name) fun t? => ?_
  cases t? with
  | some t => exact leaves_lift _
  | none =>
    refine leaves_bind (leaves_lift _) fun _ => ?_
    split
    · exact leaves_lift _
    · exact leaves_callMemory h.2 args

theorem leaves_castKind (t : TypeExpr) : (castKind t).run.LeavesScopes := by
  refine leaves_bind (leaves_typeInfo t) fun info => ?_
  split
  · exact leaves_pure _
  · exact leaves_throw _

mutual

theorem leaves_expr : ∀ e : Expr, (∀ x ∈ e.mentions, x.Sparing s) →
    (expr s call scope e).run.LeavesScopes
  | .literal _ value, _ => by
    rw [expr]
    exact leaves_pure _
  | .var k name, _ => by
    rw [expr]
    refine leaves_located k.line (leaves_get fun m => ?_)
    split
    · exact leaves_lift _
    · exact leaves_throw _
  | .binary k op lhs rhs, h => by
    rw [Expr.mentions, List.forall_mem_append] at h
    rw [expr]
    refine leaves_located k.line (leaves_bind (leaves_expr lhs h.1) fun l => ?_)
    split
    · exact leaves_pure _
    · exact leaves_pure _
    · exact leaves_bind (leaves_expr rhs h.2) fun r => leaves_lift _
  | .unary k op operand, h => by
    rw [Expr.mentions] at h
    cases op with
    | addressOf =>
      rw [expr]
      exact leaves_located k.line (leaves_bind (leaves_place operand h) fun q => leaves_pure _)
    | deref =>
      rw [expr]
      exact leaves_located k.line (leaves_bind (leaves_expr operand h) fun v =>
        leaves_bind (leaves_lift _) leaves_readPlace)
    | _ =>
      rw [expr]
      · exact leaves_located k.line (leaves_bind (leaves_expr operand h) fun v => leaves_lift _)
      all_goals nofun
  | .call k name args, h => by
    rw [Expr.mentions, List.forall_mem_cons] at h
    rw [expr]
    refine leaves_located k.line (leaves_get fun m => ?_)
    split
    · exact leaves_pure _
    · exact leaves_bind (leaves_exprs args h.2) fun vs => leaves_callNamed h.1 vs
  | .construct k type args, h => by
    rw [Expr.mentions, List.forall_mem_cons] at h
    rw [expr]
    exact leaves_located k.line (leaves_bind (leaves_exprs args h.2) fun vs =>
      leaves_bind (leaves_typeInfo type) fun t => leaves_lift _)
  | .bitcast k type value, h => by
    rw [Expr.mentions, List.forall_mem_cons] at h
    rw [expr]
    exact leaves_located k.line (leaves_bind (leaves_castKind type) fun kind =>
      leaves_bind (leaves_expr value h.2) fun v => leaves_lift _)
  | .index k base index, h => by
    rw [Expr.mentions, List.forall_mem_append] at h
    rw [expr]
    refine leaves_located k.line ?_
    split
    · exact leaves_bind (leaves_place base h.1) fun p => leaves_bind (leaves_expr index h.2) fun v =>
        leaves_bind (leaves_lift _) fun i => leaves_readPlace _
    · exact leaves_bind (leaves_expr base h.1) fun b => leaves_bind (leaves_expr index h.2) fun v =>
        leaves_bind (leaves_lift _) fun i => leaves_lift _
  | .member k base name, h => by
    rw [Expr.mentions] at h
    rw [expr]
    refine leaves_located k.line ?_
    split
    · exact leaves_bind (leaves_place base h) fun p => leaves_readPlace _
    · exact leaves_bind (leaves_expr base h) fun b => leaves_lift _
  | .group k inner, h => by
    rw [Expr.mentions] at h
    rw [expr]
    exact leaves_located k.line (leaves_expr inner h)

theorem leaves_exprs : ∀ es : List Expr, (∀ x ∈ Expr.listMentions es, x.Sparing s) →
    (exprs s call scope es).run.LeavesScopes
  | [], _ => by
    rw [exprs]
    exact leaves_pure _
  | e :: rest, h => by
    rw [Expr.listMentions, List.forall_mem_append] at h
    rw [exprs]
    exact leaves_bind (leaves_expr e h.1) fun v => leaves_bind (leaves_exprs rest h.2) fun vs =>
      leaves_pure _

theorem leaves_place : ∀ e : Expr, (∀ x ∈ e.mentions, x.Sparing s) →
    (place s call scope e).run.LeavesScopes
  | .var k name, _ => by
    rw [place]
    refine leaves_get fun m => ?_
    split
    · exact leaves_pure _
    · exact leaves_pure _
    · exact leaves_pure _
    · exact leaves_throw _
  | .index _ base index, h => by
    rw [Expr.mentions, List.forall_mem_append] at h
    rw [place]
    exact leaves_bind (leaves_place base h.1) fun p => leaves_bind (leaves_expr index h.2) fun v =>
      leaves_bind (leaves_lift _) fun i => leaves_pure _
  | .member _ base name, h => by
    rw [Expr.mentions] at h
    rw [place]
    exact leaves_bind (leaves_place base h) fun p => leaves_pure _
  | .group _ inner, h => by
    rw [Expr.mentions] at h
    rw [place]
    exact leaves_place inner h
  | .unary _ op operand, h => by
    rw [Expr.mentions] at h
    cases op with
    | deref =>
      rw [place]
      exact leaves_bind (leaves_expr operand h) fun v => leaves_lift _
    | _ =>
      rw [place]
      · exact leaves_throw _
      all_goals nofun
  | .literal .., _ | .binary .., _ | .call .., _ | .construct .., _ | .bitcast .., _ => by
    rw [place]
    · exact leaves_throw _
    all_goals nofun

end

end

/-! ## Declarations -/

section

variable {s : Shader} {config : Config} {v : VarDecl} {m m₁ : Machine}

theorem leaves_value (h : ∀ x ∈ v.mentions, x.Sparing s) {e : Expr} (hv : v.value = some e) :
    (expr s (call s) ScopeArena.root e).run.LeavesScopes := by
  refine leaves_expr e fun x hx => h x ?_
  rw [VarDecl.mentions, hv]
  exact List.mem_append_left _ (List.mem_append_left _ hx)

theorem leaves_initialValue (h : ∀ x ∈ v.mentions, x.Sparing s) :
    (initialValue s (call s) ScopeArena.root v).run.LeavesScopes := by
  unfold initialValue
  split
  · rename_i hv
    exact leaves_bind (leaves_typeInfo _) fun t => leaves_bind (leaves_value h hv) fun a =>
      leaves_lift _
  · rename_i hv
    exact leaves_value h hv
  · exact leaves_bind (leaves_typeInfo _) fun t => leaves_pure _
  · exact leaves_throw _

theorem leaves_constAssert {e : Expr} (h : ∀ x ∈ e.mentions, x.Sparing s) :
    (constAssert s (call s) ScopeArena.root e).run.LeavesScopes := by
  refine leaves_bind (leaves_expr e h) fun v => leaves_bind (leaves_lift _) fun holds => ?_
  split
  · exact leaves_pure _
  · exact leaves_throw _

theorem leaves_overrideKind (h : ∀ x ∈ v.mentions, x.Sparing s) :
    (overrideKind? s v).run.LeavesScopes := by
  unfold overrideKind?
  split
  · exact leaves_bind (leaves_typeInfo _) fun t => leaves_pure _
  · rename_i hv
    exact leaves_bind (leaves_value h hv) fun a => leaves_pure _
  · exact leaves_pure _

theorem leaves_overrideValue (h : ∀ x ∈ v.mentions, x.Sparing s) :
    (overrideValue s config v).run.LeavesScopes := by
  unfold overrideValue
  split
  · exact leaves_bind (leaves_overrideKind h) fun k => leaves_pure _
  · split
    · rename_i default _ hv
      exact leaves_value h hv
    · exact leaves_bind (leaves_typeInfo _) fun t => leaves_pure _
    · exact leaves_pure _

end

end Eval

namespace Exec

variable {s : Shader} {config : Config} {v : VarDecl} {m m₁ : Machine} {name : String}

/-- The name keeps what it is bound to at module scope. -/
def Sparing (name : String) (x : Exec α) : Prop :=
  x.Keeps fun m m₁ => m₁.scopes.findIn? ScopeArena.root name = m.scopes.findIn? ScopeArena.root name

theorem LeavesScopes.sparing {x : Exec α} (h : x.LeavesScopes) : x.Sparing name :=
  fun m a m₁ hrun => congrArg (·.findIn? ScopeArena.root name) (h m a m₁ hrun)

theorem sparing_bind {x : Exec α} {f : α → Exec β} (hx : x.Sparing name)
    (hf : ∀ a, (f a).Sparing name) : (x >>= f).Sparing name := by
  intro m b m₂ hrun
  obtain ⟨a, m₁, h₁, h₂⟩ := bind_ok hrun
  exact (hf a m₁ b m₂ h₂).trans (hx m a m₁ h₁)

theorem sparing_bindName {other : String} (slot : Slot) (h : name ≠ other) :
    (bind ScopeArena.root other slot).Sparing name := by
  intro m a m₁ hrun
  cases hrun
  exact ScopeArena.findIn?_insert_of_ne (.inr h)

theorem sparing_evalBind {x : Eval α} {f : α → Eval β} (hx : x.run.LeavesScopes)
    (hf : ∀ a, (f a).run.Sparing name) : (x >>= f).run.Sparing name := by
  rw [ExceptT.run_bind]
  refine sparing_bind hx.sparing fun r => ?_
  cases r with
  | ok a => exact hf a
  | error e => exact (leaves_pure _).sparing

/-- A variable that is declared changes its own name only. -/
theorem sparing_declare (h : ∀ x ∈ v.mentions, x.Sparing s) (hname : name ≠ v.name) :
    (Eval.declare s (Eval.call s) ScopeArena.root v).run.Sparing name := by
  refine sparing_bind (Eval.leaves_initialValue h).sparing fun r => ?_
  cases r with
  | ok a => exact sparing_bind (sparing_bindName _ hname) fun _ => (leaves_pure _).sparing
  | error e => exact sparing_bind (sparing_bindName _ hname) fun _ => (leaves_pure _).sparing

/-- So does an override. -/
theorem sparing_declareOverride (h : ∀ x ∈ v.mentions, x.Sparing s) (hname : name ≠ v.name) :
    (Eval.declareOverride s config v).run.Sparing name := by
  have bound : ∀ a : Value, (Eval.ofExec (bind ScopeArena.root v.name (.value a))).run.Sparing name :=
    fun a => sparing_bind (sparing_bindName _ hname) fun _ => (leaves_pure _).sparing
  refine sparing_evalBind (Eval.leaves_overrideValue h) fun value => ?_
  split
  · exact sparing_evalBind (Eval.leaves_typeInfo _) fun t =>
      sparing_evalBind (Eval.leaves_lift _) bound
  · exact sparing_evalBind (Eval.leaves_pure _) bound

/-- A declaration that is run changes the name of a value only, which it declares. -/
theorem sparing_declaration {d : Declaration} (h : ∀ x ∈ d.mentions, x.Sparing s)
    (hname : d.valueName? ≠ some name) : (declaration s config d).Sparing name := by
  have reported : ∀ {x : Eval Unit}, x.run.Sparing name → (reporting d.line x).Sparing name := by
    refine fun hx => sparing_bind hx fun r => ?_
    cases r with
    | ok a => exact (leaves_pure _).sparing
    | error e =>
      intro m a m₁ hrun
      cases hrun
      rfl
  refine reported ?_
  cases d with
  | value kind v =>
    have apart : name ≠ v.name := fun e => hname (congrArg some e.symm)
    cases kind with
    | const => exact sparing_declare h apart
    | override => exact sparing_declareOverride h apart
    | var =>
      change (ite _ _ _ : Eval Unit).run.Sparing name
      split
      · refine sparing_evalBind (fun m a m₁ hrun => ?_) fun _ => sparing_declare h apart
        cases hrun
        rfl
      · exact (Eval.leaves_pure _).sparing
  | constAssert e => exact (Eval.leaves_constAssert h).sparing
  | _ => exact (Eval.leaves_pure _).sparing

end Exec

end Wgsl
