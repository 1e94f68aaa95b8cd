import Wgsl.Proofs.Machine.Correspondence
import Wgsl.Proofs.Machine.Hooked
import Wgsl.Proofs.Value.Rectangular

/-! # Two runs side by side

The second of two computations does what the first one does, as long as something holds of the
machine and of all values. What has to hold is kept by every step of the interpreter.

* `Exec.Mirrors`: on these machines the second computation does what the first one does, and what
  comes out of both is good.
* `ValueInvariant`, `Invariant`: what holds of values and of machines at every step.
* `Hooks.SameValues`, `Hooks.SameRuns`: hooks that make no difference where an invariant holds.
-/

namespace Wgsl
set_option autoImplicit false

open Run (Ensures)

variable {α β : Type}

/-- On these machines the second computation does what the first one does, and leaves such a machine
and a good outcome. -/
def Exec.Mirrors (P : Machine → Prop) (good : α → Prop) (x x' : Exec α) : Prop :=
  ∀ m, P m → x' m = x m ∧ ∀ a m₁, x m = .ok (a, m₁) → P m₁ ∧ good a

/-- The same for computations that may fail. -/
abbrev Eval.Mirrors {ε : Type} (P : Machine → Prop) (good : α → Prop) (x x' : ExceptT ε Exec α) :
    Prop :=
  Exec.Mirrors P (fun r => ∀ a, r = .ok a → good a) x.run x'.run

/-! ## Computations -/

namespace Exec

variable {P : Machine → Prop} {good good' : α → Prop} {next : β → Prop} {x x' : Exec α}
  {f f' : α → Exec β}

theorem mirrors_pure {a : α} (h : good a) : Mirrors P good (pure a) (pure a) := fun m hm =>
  ⟨rfl, fun b m₁ hrun => by cases hrun; exact ⟨hm, h⟩⟩

theorem Mirrors.mono (h : Mirrors P good x x') (hgood : ∀ a, good a → good' a) :
    Mirrors P good' x x' := fun m hm =>
  (h m hm).imp_right fun leaves a m₁ hrun => (leaves a m₁ hrun).imp_right (hgood a)

/-- What follows need only be the same for what may come out. -/
theorem Mirrors.bind_of (hx : Mirrors P good x x')
    (hf : ∀ m a m₁, P m → x m = .ok (a, m₁) → good a → Mirrors P next (f a) (f' a)) :
    Mirrors P next (x >>= f) (x' >>= f') := by
  intro m hm
  obtain ⟨same, leaves⟩ := hx m hm
  cases hrun : x m with
  | error e =>
    rw [bind_of_error hrun, bind_of_error (same.trans hrun)]
    exact ⟨rfl, nofun⟩
  | ok r =>
    obtain ⟨a, m₁⟩ := r
    obtain ⟨hm₁, ha⟩ := leaves a m₁ hrun
    rw [bind_of_ok hrun, bind_of_ok (same.trans hrun)]
    exact hf m a m₁ hm hrun ha m₁ hm₁

theorem Mirrors.bind (hx : Mirrors P good x x') (hf : ∀ a, good a → Mirrors P next (f a) (f' a)) :
    Mirrors P next (x >>= f) (x' >>= f') :=
  hx.bind_of fun _ a _ _ _ => hf a

theorem mirrors_get {f f' : Machine → Exec α} (h : ∀ m, P m → Mirrors P good (f m) (f' m)) :
    Mirrors P good (get >>= f) (get >>= f') := fun m hm => h m hm m hm

theorem mirrors_modifyGet {f : Machine → α × Machine} (h : ∀ m, P m → P (f m).2 ∧ good (f m).1) :
    Mirrors P good (modifyGet f : Exec α) (modifyGet f) := fun m hm =>
  ⟨rfl, fun a m₁ hrun => by
    have left : f m = (a, m₁) := Except.ok.inj hrun
    have kept := h m hm
    rwa [left] at kept⟩

theorem mirrors_modify {f : Machine → Machine} (h : ∀ m, P m → P (f m)) :
    Mirrors P (fun _ => True) (modify f : Exec PUnit) (modify f) :=
  mirrors_modifyGet fun m hm => ⟨h m hm, trivial⟩

theorem mirrors_forM {F F' : β → Exec PUnit} {l : List β}
    (h : ∀ b ∈ l, Mirrors P (fun _ => True) (F b) (F' b)) :
    Mirrors P (fun _ => True) (l.forM F) (l.forM F') := by
  induction l with
  | nil => exact mirrors_pure trivial
  | cons b l ih =>
    refine (h b List.mem_cons_self).bind fun _ _ => ?_
    exact ih fun c hc => h c (List.mem_cons_of_mem _ hc)

end Exec

namespace Eval

section

variable {ε : Type} {P : Machine → Prop} {good : α → Prop} {next : β → Prop}
  {x x' : ExceptT ε Exec α} {f f' : α → ExceptT ε Exec β}

theorem mirrors_pure {a : α} (h : good a) : Mirrors P good (pure a : ExceptT ε Exec α) (pure a) :=
  Exec.mirrors_pure fun b hb => by cases hb; exact h

theorem mirrors_throw (e : ε) : Mirrors P good (throw e : ExceptT ε Exec α) (throw e) :=
  Exec.mirrors_pure nofun

theorem Mirrors.bind_of (hx : Mirrors P good x x')
    (hf : ∀ m a m₁, P m → x.run m = .ok (.ok a, m₁) → good a → Mirrors P next (f a) (f' a)) :
    Mirrors P next (x >>= f) (x' >>= f') := by
  unfold Mirrors
  rw [ExceptT.run_bind, ExceptT.run_bind]
  refine Exec.Mirrors.bind_of hx fun m r m₁ hm hrun hr => ?_
  cases r with
  | ok a => exact hf m a m₁ hm hrun (hr a rfl)
  | error e => exact Exec.mirrors_pure nofun

theorem Mirrors.bind (hx : Mirrors P good x x') (hf : ∀ a, good a → Mirrors P next (f a) (f' a)) :
    Mirrors P next (x >>= f) (x' >>= f') :=
  hx.bind_of fun _ a _ _ _ => hf a

theorem mirrors_lifted {x x' : Exec α} (h : Exec.Mirrors P good x x') :
    Mirrors P good (ExceptT.lift x : ExceptT ε Exec α) (ExceptT.lift x') := by
  change Exec.Mirrors P _ (x >>= fun a => pure (Except.ok a)) (x' >>= fun a => pure (Except.ok a))
  exact h.bind fun a ha => Exec.mirrors_pure fun b hb => by cases hb; exact ha

theorem mirrors_mapM {F F' : β → ExceptT ε Exec α} {l : List β}
    (h : ∀ b ∈ l, Mirrors P good (F b) (F' b)) :
    Mirrors P (fun as => ∀ a ∈ as, good a) (l.mapM F) (l.mapM F') := by
  induction l with
  | nil => exact mirrors_pure nofun
  | cons b l ih =>
    rw [List.mapM_cons, List.mapM_cons]
    refine (h b List.mem_cons_self).bind fun a ha => ?_
    refine (ih fun c hc => h c (List.mem_cons_of_mem _ hc)).bind fun as has => ?_
    exact mirrors_pure (List.forall_mem_cons.2 ⟨ha, has⟩)

end

variable {P : Machine → Prop} {good : α → Prop} {x x' : Eval α}

theorem mirrors_lift {r : Run α} (h : Ensures good r) :
    Mirrors P good (liftM r : Eval α) (liftM r) := by
  cases r with
  | ok a => exact mirrors_pure (h a rfl)
  | error e => exact mirrors_throw e

theorem mirrors_read {r : Machine → Run α} (hx : ∀ m, x.run m = .ok (r m, m))
    (h : ∀ m, P m → Ensures good (r m)) : Mirrors P good x x := fun m hm =>
  ⟨rfl, fun a m₁ hrun => by rw [hx] at hrun; cases hrun; exact ⟨hm, h m hm⟩⟩

theorem mirrors_get {f f' : Machine → Eval α} (h : ∀ m, P m → Mirrors P good (f m) (f' m)) :
    Mirrors P good (get >>= f) (get >>= f') := fun m hm => h m hm m hm

theorem mirrors_located (line : Nat) (h : Mirrors P good x x') :
    Mirrors P good (located line x) (located line x') := by
  unfold Mirrors
  rw [run_located, run_located]
  refine Exec.Mirrors.bind h fun r hr => Exec.mirrors_pure fun a ha => hr a ?_
  cases r with
  | ok b => exact ha
  | error e => cases ha

end Eval

/-! ## Invariants -/

/-- What holds of every value that a run comes to. Each operation keeps it. -/
structure ValueInvariant where
  value : Value → Prop
  void : value .void
  bool : ∀ b, value (.bool b)
  i32 : ∀ n, value (.i32 n)
  f32 : ∀ x, value (.f32 x)
  pointer : ∀ q, value (.pointer q)
  literal : ∀ l, value (.ofLiteral l)
  zeroOf : ∀ t, value (.zeroOf t)
  ofDouble : ∀ x kind, value (.ofDouble x kind)
  unary : ∀ op v, value v → Ensures value (Value.unary op v)
  bitcast : ∀ kind v, Ensures value (Value.bitcast kind v)
  construct : ∀ t inferred args, (∀ v ∈ args, value v) →
    Ensures value (Value.construct t inferred args)
  coerceTo : ∀ t v, value v → Ensures value (Value.coerceTo t v)
  part : ∀ a v, value v → Ensures value (v.part a)

/-- Nothing is asked of values. -/
def ValueInvariant.anything : ValueInvariant where
  value _ := True
  void := trivial
  bool _ := trivial
  i32 _ := trivial
  f32 _ := trivial
  pointer _ := trivial
  literal _ := trivial
  zeroOf _ := trivial
  ofDouble _ _ := trivial
  unary _ _ _ := Run.ensures_all _
  bitcast _ _ := Run.ensures_all _
  construct _ _ _ _ := Run.ensures_all _
  coerceTo _ _ _ := Run.ensures_all _
  part _ _ _ := Run.ensures_all _

/-- What holds besides of every machine in which so many calls are running. Each step of the
interpreter keeps it. -/
structure Invariant extends ValueInvariant where
  machine : Nat → Machine → Prop
  nameValue : ∀ {depth m}, machine depth m → ∀ scope name, Ensures value (m.nameValue scope name)
  readPlace : ∀ {depth m}, machine depth m → ∀ q, Ensures value (m.readPlace q)
  callResult : ∀ {depth m}, machine depth m → ∀ outcome ∈ m.callResults, value outcome.2
  writePlace : ∀ {depth m}, machine depth m → ∀ q v, value v →
    machine depth ((Machine.writePlace q v).apply m).2
  bind : ∀ {depth m}, machine depth m → ∀ scope name v, value v →
    machine depth (m.bind scope name (.value v))
  pushed : ∀ {depth m}, machine depth m → ∀ parent, machine depth (m.pushed parent)
  popped : ∀ {depth m}, machine depth m → ∀ scope, machine depth (m.popped scope)
  /-- It depends on nothing else. -/
  same : ∀ {depth m} {m₁ : Machine}, machine depth m → m₁.scopes = m.scopes →
    m₁.callResults = m.callResults → m₁.layouts = m.layouts → m₁.callDepth = m.callDepth →
    machine depth m₁
  /-- A call is followed if it was admitted before its arguments were bound. -/
  deeper : ∀ {depth before m}, machine depth before → before.callDepth < maxCallDepth →
    machine depth m → machine (depth + 1) { m with callDepth := m.callDepth + 1 }
  shallower : ∀ {depth m}, machine (depth + 1) m →
    machine depth { m with callDepth := m.callDepth - 1 }

/-- The value that a statement hands back has the property. -/
def Flow.Carries (good : Value → Prop) : Flow → Prop
  | .return_ (some v) => good v
  | _ => True

theorem Flow.carries_afterBody {good : Value → Prop} {flow : Flow} (h : flow.Carries good) :
    ∀ after ∈ Eval.afterBody flow, after.Carries good := by
  intro after hafter
  cases flow <;> cases hafter <;> exact h

namespace Invariant

variable (I : Invariant) (depth : Nat)

/-- Computations on machines of the invariant. -/
abbrev Execs (good : α → Prop) (x x' : Exec α) : Prop := Exec.Mirrors (I.machine depth) good x x'

/-- Computations on machines of the invariant that may fail. -/
abbrev Evals (good : α → Prop) (x x' : Eval α) : Prop := Eval.Mirrors (I.machine depth) good x x'

/-- Calls of declared functions do the same. -/
def Answers (s : Shader) (call call' : Caller) : Prop :=
  ∀ name f args, s.function? name = some f → (∀ v ∈ args, I.value v) →
    I.Evals depth I.value (call f args) (call' f args)

end Invariant

/-- Hooks that make no difference to the values of expressions. -/
structure Hooks.SameValues (I : Invariant) (h : Hooks) : Prop where
  typeInfo : ∀ depth t, I.Evals depth (fun _ => True) (Eval.typeInfo t) (h.typeInfo t)
  structInfo? : ∀ depth name,
    I.Evals depth (fun _ => True) (Eval.structInfo? name) (h.structInfo? name)
  binary : ∀ depth op l r, I.value l → I.value r →
    I.Evals depth I.value (Value.binary op l r) (h.binary op l r)
  builtin : ∀ depth name args, (∀ v ∈ args, I.value v) →
    I.Evals depth I.value (Eval.callBuiltin name args) (h.builtin name args)
  evaluated : ∀ {depth x x'}, I.Evals depth I.value x x' → I.Evals depth I.value x (h.evaluated x')

/-- Hooks that make no difference to statements either. -/
structure Hooks.SameRuns (I : Invariant) (h : Hooks) : Prop extends Hooks.SameValues I h where
  begun : ∀ {depth x x'}, I.Execs depth (Flow.Carries I.value) x x' →
    I.Execs depth (Flow.Carries I.value) x (h.begun x')
  declared : ∀ {depth x x'}, I.Execs depth (fun _ => True) x x' →
    I.Execs depth (fun _ => True) x (h.declared x')
  repeated : ∀ {depth round round'},
    I.Evals depth (fun flow? => ∀ flow ∈ flow?, flow.Carries I.value) round round' →
    I.Evals depth (Flow.Carries I.value) (Eval.repeated round) (h.repeated round')
  discard : ∀ depth line,
    I.Execs depth (Flow.Carries I.value) (Eval.settled line (return .discard)) (h.discard line)

/-! ## Changes of the machine -/

namespace Invariant

variable {I : Invariant} {depth : Nat} {good : α → Prop}

theorem mirrors_report (e : RunError) :
    I.Execs depth (fun _ => True) (Exec.report e) (Exec.report e) :=
  Exec.mirrors_modify fun _ hm => I.same hm rfl rfl rfl rfl

theorem mirrors_bindName (scope : ScopeId) (name : String) {v : Value} (hv : I.value v) :
    I.Execs depth (fun _ => True) (Exec.bind scope name (.value v))
      (Exec.bind scope name (.value v)) :=
  Exec.mirrors_modify fun _ hm => I.bind hm scope name v hv

theorem mirrors_pushScope (parent : ScopeId) :
    I.Execs depth (fun _ => True) (Exec.pushScope parent) (Exec.pushScope parent) :=
  Exec.mirrors_modifyGet fun _ hm => ⟨I.pushed hm parent, trivial⟩

theorem mirrors_popScope (scope : ScopeId) :
    I.Execs depth (fun _ => True) (Exec.popScope scope) (Exec.popScope scope) :=
  Exec.mirrors_modify fun _ hm => I.popped hm scope

theorem mirrors_inScope {parent : ScopeId} {x x' : ScopeId → Exec α}
    (h : ∀ scope, I.Execs depth good (x scope) (x' scope)) :
    I.Execs depth good (Exec.inScope parent x) (Exec.inScope parent x') :=
  (mirrors_pushScope parent).bind fun scope _ => (h scope).bind fun _ ha =>
    (mirrors_popScope scope).bind fun _ _ => Exec.mirrors_pure ha

/-- In a call one more is running, and afterwards as many as before. -/
theorem mirrors_nested {x x' : Exec α} {before : Machine} (hbefore : I.machine depth before)
    (hroom : before.callDepth < maxCallDepth) (h : I.Execs (depth + 1) good x x') :
    I.Execs depth good (Exec.nested x) (Exec.nested x') := by
  intro m hm
  obtain ⟨same, leaves⟩ := h _ (I.deeper hbefore hroom hm)
  have entered : ∀ y : Exec α, Exec.nested y m = (y >>= fun a => do
      modify fun m => { m with callDepth := m.callDepth - 1 }
      return a) { m with callDepth := m.callDepth + 1 } := fun _ => rfl
  rw [entered, entered]
  cases hrun : x { m with callDepth := m.callDepth + 1 } with
  | error e =>
    rw [Exec.bind_of_error hrun, Exec.bind_of_error (same.trans hrun)]
    exact ⟨rfl, nofun⟩
  | ok r =>
    obtain ⟨a, m₁⟩ := r
    rw [Exec.bind_of_ok hrun, Exec.bind_of_ok (same.trans hrun)]
    obtain ⟨hm₁, ha⟩ := leaves a m₁ hrun
    refine ⟨rfl, fun b m₂ hend => ?_⟩
    cases hend
    exact ⟨I.shallower hm₁, ha⟩

theorem mirrors_readName (scope : ScopeId) (name : String) :
    I.Evals depth I.value (Eval.readName scope name) (Eval.readName scope name) :=
  Eval.mirrors_read (Eval.readName_run scope name) fun _ hm => I.nameValue hm scope name

theorem mirrors_placeOfName (scope : ScopeId) (name : String) (line : Nat) :
    I.Evals depth (fun _ => True) (Eval.placeOfName scope name line)
      (Eval.placeOfName scope name line) :=
  Eval.mirrors_read (Eval.placeOfName_run scope name line) fun _ _ => Run.ensures_all _

theorem mirrors_readPlace (q : Place) :
    I.Evals depth I.value (Eval.readPlace q) (Eval.readPlace q) :=
  Eval.mirrors_read (Eval.readPlace_run q) fun _ hm => I.readPlace hm q

theorem mirrors_writePlace (q : Place) {v : Value} (hv : I.value v) :
    I.Evals depth (fun _ => True) (Eval.writePlace q v) (Eval.writePlace q v) := fun m hm =>
  ⟨rfl, fun r m₁ hrun => by
    have left := Except.ok.inj hrun
    have kept := I.writePlace hm q v hv
    rw [left] at kept
    exact ⟨kept, fun _ _ => trivial⟩⟩

theorem mirrors_inBlock {scope : ScopeId} {body body' : ScopeId → Exec Flow}
    (h : ∀ scope, I.Execs depth (Flow.Carries I.value) (body scope) (body' scope)) :
    I.Evals depth (Flow.Carries I.value) (Eval.inBlock scope body) (Eval.inBlock scope body') :=
  Eval.mirrors_lifted (mirrors_inScope h)

/-- A statement ends and its error is reported. -/
theorem mirrors_settled (line : Nat) {x x' : Eval Flow}
    (h : I.Evals depth (Flow.Carries I.value) x x') :
    I.Execs depth (Flow.Carries I.value) (Eval.settled line x) (Eval.settled line x') := by
  refine Exec.Mirrors.bind h fun outcome houtcome => Exec.mirrors_get fun m _ => ?_
  split
  · exact Exec.mirrors_pure trivial
  · cases outcome with
    | ok flow => exact Exec.mirrors_pure (houtcome flow rfl)
    | error e => exact (mirrors_report _).bind fun _ _ => Exec.mirrors_pure trivial

/-- By induction on the rounds that are left. -/
theorem mirrors_rounds {round round' : Eval (Option Flow)}
    (h : I.Evals depth (fun flow? => ∀ flow ∈ flow?, flow.Carries I.value) round round') (n : Nat) :
    I.Evals depth (Flow.Carries I.value) (Eval.rounds round n) (Eval.rounds round' n) := by
  induction n with
  | zero => exact Eval.mirrors_throw _
  | succ n ih =>
    refine h.bind fun flow? hflow => ?_
    cases flow? with
    | some flow => exact Eval.mirrors_pure (hflow flow rfl)
    | none => exact ih

theorem mirrors_reporting (line : Nat) {x x' : Eval Unit} (h : I.Evals depth (fun _ => True) x x') :
    I.Execs depth (fun _ => True) (Exec.reporting line x) (Exec.reporting line x') := by
  refine Exec.Mirrors.bind h fun outcome _ => ?_
  cases outcome with
  | ok _ => exact Exec.mirrors_pure trivial
  | error e => exact mirrors_report _

end Invariant

end Wgsl
