import Wgsl.Proofs.Machine.Unnoticed

/-! # Starts and dispatches with hooks

Where hooks make no difference to statements, they make none to a start. A dispatch does the same if
the stages do that it is made of: what holds between them may be more than what holds at every step.

* `Hooks.SameRuns.start`: a start, which forgets what was there before.
* `Hooks.Stages`: the stages of a dispatch do the same.
* `Hooks.Stages.dispatch`: by induction on the invocations.
-/

namespace Wgsl
set_option autoImplicit false

open Run (ensures_all)
open Eval (mirrors_pure mirrors_throw mirrors_lift mirrors_lifted mirrors_mapM)
open Invariant

variable {I : Invariant} {h : Hooks} {s : Shader}

/-! ## Starting a module -/

namespace Hooks.SameRuns

section

variable (hh : h.SameRuns I) (hcall : I.Answers 0 s (Eval.call s) (h.call s)) {config : Config}

include hh hcall

theorem mirrors_overrideKind? (v : VarDecl) : I.Evals 0 (fun _ => True) (Eval.overrideKind? s v)
    (h.overrideKind? s v) := by
  unfold Eval.overrideKind? overrideKind?
  cases v.type with
  | some type => exact (hh.typeInfo 0 type).bind fun _ _ => mirrors_pure trivial
  | none =>
    cases v.value with
    | some init => exact (hh.mirrors_expr hcall init).bind fun _ _ => mirrors_pure trivial
    | none => exact mirrors_pure trivial

theorem mirrors_overrideValue (v : VarDecl) : I.Evals 0 I.value (Eval.overrideValue s config v)
    (h.overrideValue s config v) := by
  unfold Eval.overrideValue overrideValue
  cases config.overrideValue? v with
  | some x =>
    exact (hh.mirrors_overrideKind? hcall v).bind fun k _ => mirrors_pure (I.ofDouble x _)
  | none =>
    cases v.value with
    | some init => exact hh.mirrors_expr hcall init
    | none =>
      cases v.type with
      | some type => exact (hh.typeInfo 0 type).bind fun t _ => mirrors_pure (I.zeroOf t)
      | none => exact mirrors_pure (I.f32 _)

theorem mirrors_declareOverride (v : VarDecl) : I.Evals 0 (fun _ => True)
    (Eval.declareOverride s config v) (h.declareOverride s config v) := by
  have bound : ∀ w : Value, I.value w → I.Evals 0 (fun _ => True)
      (Eval.ofExec (Exec.bind ScopeArena.root v.name (.value w)))
      (Eval.ofExec (Exec.bind ScopeArena.root v.name (.value w))) := fun w hw =>
    mirrors_lifted (mirrors_bindName _ _ hw)
  refine (hh.mirrors_overrideValue hcall v).bind fun w hw => ?_
  cases v.type with
  | none => exact bound w hw
  | some type =>
    refine (hh.typeInfo 0 type).bind fun t _ => ?_
    exact (mirrors_lift (I.coerceTo t w hw)).bind bound

theorem mirrors_moduleDeclaration (d : Declaration) : I.Evals 0 (fun _ => True)
    (Eval.declaration s config d) (h.moduleDeclaration s config d) := by
  cases d with
  | value kind v =>
    cases kind with
    | const => exact hh.mirrors_declare hcall v
    | override => exact hh.mirrors_declareOverride hcall v
    | var =>
      rw [Eval.declaration, moduleDeclaration]
      split
      · have noted : I.Execs 0 (fun _ => True)
            (modify fun m => { m with moduleVars := m.moduleVars ++ [v] } : Exec PUnit)
            (modify fun m => { m with moduleVars := m.moduleVars ++ [v] }) :=
          Exec.mirrors_modify fun _ hm => I.same hm rfl rfl rfl rfl
        exact (mirrors_lifted noted).bind fun _ _ => hh.mirrors_declare hcall v
      · exact mirrors_pure trivial
  | constAssert e => exact hh.mirrors_constAssert hcall e
  | _ => exact mirrors_pure trivial

/-- A start does the same, and leaves such a machine. -/
theorem start {m : Machine} (hm : I.machine 0 m.reset) (config : Config) :
    h.start s config m = Exec.start s config m ∧
      ∀ m₁, Exec.start s config m = .ok ((), m₁) → I.machine 0 m₁ := by
  have declared : I.Execs 0 (fun _ => True)
      (s.program.declarations.forM (Exec.declaration s config))
      (s.program.declarations.forM (h.declaration s config)) :=
    Exec.mirrors_forM fun d _ =>
      hh.declared (mirrors_reporting d.line (hh.mirrors_moduleDeclaration hcall d))
  obtain ⟨same, leaves⟩ := declared m.reset hm
  exact ⟨same, fun m₁ hrun => (leaves () m₁ hrun).1⟩

theorem mirrors_resetVariables (newWorkgroup : Bool) : I.Execs 0 (fun _ => True)
    (Exec.resetVariables s newWorkgroup) (h.resetVariables s newWorkgroup) :=
  Exec.mirrors_get fun _ _ => Exec.mirrors_forM fun v _ =>
    hh.declared (mirrors_reporting v.line (hh.mirrors_declare hcall v))

theorem mirrors_workgroupSize (f : Function) : Eval.Mirrors (I.machine 0) (fun _ => True)
    (Attempt.workgroupSize s f) (h.workgroupSize s f) := by
  have axis : ∀ e, Eval.Mirrors (I.machine 0) (fun _ => True) (Attempt.workgroupAxis s e)
      (h.workgroupAxis s e) := by
    intro e
    have size : I.Evals 0 (fun _ => True)
        (do (← Eval.expr s (Eval.call s) ScopeArena.root e).unsigned)
        (do (← h.expr s (h.call s) ScopeArena.root e).unsigned) :=
      (hh.mirrors_expr hcall e).bind fun v _ => mirrors_lift (ensures_all v.unsigned)
    refine (mirrors_lifted size).bind fun outcome _ => ?_
    cases outcome with
    | ok n => exact mirrors_pure trivial
    | error reason => exact mirrors_throw _
  unfold Attempt.workgroupSize workgroupSize
  cases f.attribute? "workgroup_size" with
  | none => exact mirrors_throw _
  | some a =>
    refine (mirrors_mapM fun e _ => axis e).bind fun sizes _ => ?_
    rcases sizes with _ | ⟨x, _ | ⟨y, _ | ⟨z, _ | ⟨w, rest⟩⟩⟩⟩ <;> exact mirrors_pure trivial

end

end Hooks.SameRuns

/-! ## Dispatches -/

/-- The stages of a dispatch of an entry point do the same, and each leaves a machine with the
property. -/
structure Hooks.Stages (h : Hooks) (s : Shader) (entry : String) (P : Machine → Prop) : Prop where
  start : ∀ config, Exec.Mirrors P (fun _ => True) (Exec.start s config) (h.start s config)
  size : ∀ f, s.function? entry = some f →
    Eval.Mirrors P (fun _ => True) (Attempt.workgroupSize s f) (h.workgroupSize s f)
  resources : ∀ m g, P m → P (m.bindResources s.reflection.resources g).1
  moduleVars : ∀ newWorkgroup, Exec.Mirrors P (fun _ => True) (Exec.resetVariables s newWorkgroup)
    (h.resetVariables s newWorkgroup)
  unmarked : ∀ m, P m → P { m with discarded := false }
  opened : ∀ m, P m → P (m.pushed ScopeArena.root)
  builtins : ∀ (plan : DispatchPlan) index scope, ∀ b ∈ (plan.invocation index).builtins plan.workgroups,
    ∀ m, P m → P (m.bind scope b.1 (.value b.2))
  argument : ∀ f, s.function? entry = some f → ∀ arg ∈ f.args, ∀ scope,
    Exec.Mirrors P (fun _ => True) (Exec.bindArgument s f scope arg) (h.bindArgument s f scope arg)
  body : ∀ f, s.function? entry = some f → ∀ scope, Exec.Mirrors P (fun _ => True)
    (Eval.stmts s (Eval.call s) scope f.body) (h.begun (h.stmts s (h.call s) scope f.body))
  closed : ∀ scope m, P m → P { m.popped scope with callResults := [] }
  unbound : ∀ m, P m → P m.unbound

theorem Attempt.of_run_bind_ok {α β : Type} {x : Attempt α} {f : α → Attempt β} {m m₂ : Machine}
    {b : β} (h : (x >>= f).run m = .ok (.ok b, m₂)) :
    ∃ a m₁, x.run m = .ok (.ok a, m₁) ∧ (f a).run m₁ = .ok (.ok b, m₂) := by
  rw [ExceptT.run_bind] at h
  obtain ⟨outcome, m₁, hrun, h⟩ := Exec.bind_ok h
  cases outcome with
  | error e => cases h
  | ok a => exact ⟨a, m₁, hrun, h⟩

/-- A dispatch that gets ready runs the function of that name. -/
theorem Attempt.function?_of_prepare {s : Shader} {entry : String} {workgroups : Extent}
    {g rest : BindGroups} {config : Config} {plan : DispatchPlan} {m m₁ : Machine}
    (h : (prepare s entry workgroups g config).run m = .ok (.ok (plan, rest), m₁)) :
    s.function? entry = some plan.entry := by
  unfold prepare at h
  cases hl : s.reflection.layoutErrors.head? with
  | some message =>
    rw [hl] at h
    cases h
  | none =>
  rw [hl] at h
  obtain ⟨_, m₂, -, h⟩ := of_run_bind_ok h
  cases hf : s.function? entry with
  | none =>
    rw [hf] at h
    cases h
  | some f =>
    rw [hf] at h
    obtain ⟨size, m₄, -, h⟩ := of_run_bind_ok h
    split at h
    · cases h
    · obtain ⟨left, m₅, -, h⟩ := of_run_bind_ok h
      cases h
      rfl

namespace Hooks.Stages

variable {entry : String} {P : Machine → Prop} (hh : h.Stages s entry P) {workgroups : Extent}
  {g : BindGroups} {config : Config} {plan : DispatchPlan}

include hh

theorem mirrors_prepare : Eval.Mirrors P (fun _ => True)
    (Attempt.prepare s entry workgroups g config) (h.prepare s entry workgroups g config) := by
  unfold Attempt.prepare prepare
  cases s.reflection.layoutErrors.head? with
  | some message => exact mirrors_throw _
  | none =>
    refine (mirrors_lifted (hh.start config)).bind fun _ _ => ?_
    cases hf : s.function? entry with
    | none => exact mirrors_throw _
    | some f =>
      refine (hh.size f hf).bind fun size _ => ?_
      split
      · exact mirrors_throw _
      · refine Eval.Mirrors.bind (mirrors_lifted ?_) fun rest (_ : True) => mirrors_pure trivial
        exact Exec.mirrors_modifyGet fun m hm => ⟨hh.resources m g hm, trivial⟩

variable (hentry : s.function? entry = some plan.entry)

include hentry

theorem mirrors_beginInvocation (index : Nat) : Exec.Mirrors P (fun _ => True)
    (Exec.beginInvocation s plan index) (h.beginInvocation s plan index) := by
  refine (hh.moduleVars _).bind fun _ _ => (Exec.mirrors_modify hh.unmarked).bind fun _ _ => ?_
  have opened : Exec.Mirrors P (fun _ => True) (Exec.pushScope ScopeArena.root)
      (Exec.pushScope ScopeArena.root) :=
    Exec.mirrors_modifyGet fun m hm => ⟨hh.opened m hm, trivial⟩
  refine opened.bind fun scope _ => (Exec.mirrors_forM fun b hb => ?_).bind fun _ _ => ?_
  · exact Exec.mirrors_modify fun m hm => hh.builtins plan index scope b hb m hm
  · refine (Exec.mirrors_forM fun arg harg => ?_).bind fun _ _ => Exec.mirrors_pure trivial
    exact hh.argument plan.entry hentry arg harg scope

theorem mirrors_runInvocation (index : Nat) : Exec.Mirrors P (fun _ => True)
    (Exec.runInvocation s plan index) (h.runInvocation s plan index) := by
  have closed : ∀ scope, Exec.Mirrors P (fun _ => True) (Exec.endInvocation scope)
      (Exec.endInvocation scope) := fun scope =>
    Exec.mirrors_modify (f := fun m => { m.popped scope with callResults := [] }) (hh.closed scope)
  refine (hh.mirrors_beginInvocation hentry index).bind fun scope _ => ?_
  exact (hh.body plan.entry hentry scope).bind fun _ _ => closed scope

/-- By induction on the invocations that are left. -/
theorem mirrors_runInvocations (count index : Nat) : Exec.Mirrors P (fun _ => True)
    (Exec.runInvocations s plan count index) (h.runInvocations s plan count index) := by
  induction count generalizing index with
  | zero => exact Exec.mirrors_pure trivial
  | succ count ih => exact (hh.mirrors_runInvocation hentry index).bind fun _ _ => ih (index + 1)

omit hentry in
theorem dispatch : Eval.Mirrors P (fun _ => True) (Attempt.dispatch s entry workgroups g config)
    (h.dispatch s entry workgroups g config) := by
  have finished : ∀ rest, Exec.Mirrors P (fun _ => True) (Exec.finish rest) (Exec.finish rest) :=
    fun rest => Exec.mirrors_modifyGet fun m hm => ⟨hh.unbound m hm, trivial⟩
  refine hh.mirrors_prepare.bind_of fun m planned m₁ _ hrun _ => mirrors_lifted ?_
  obtain ⟨plan, rest⟩ := planned
  have hentry := Attempt.function?_of_prepare hrun
  exact (hh.mirrors_runInvocations hentry _ 0).bind fun _ _ => finished rest

end Hooks.Stages

end Wgsl
