import Wgsl.Machine.Dispatch
import Wgsl.Proofs.Machine.Hidden

/-! # Modules and invocations in two runs

What is done around the bodies of functions: the declarations of a module are run, the size of a
workgroup is settled, variables get their initial values and the arguments of an entry point are
bound. Done in two runs that differ in what is hidden, all this keeps the runs related.

* `Correspondence.Tracks`: what `Correspondence.Sim` says where no error releases the second run.
* `Bridge.tracks_declarations`, `Bridge.tracks_entry`: a module is started.
* `Bridge.tracks_runInvocations`: by induction over the invocations.
-/

namespace Wgsl
set_option autoImplicit false

open Correspondence
open Value (rename)

/-! ## Computations that track each other -/

/-- The second computation ends, or stops, like the first. -/
def Correspondence.Tracks (C : Correspondence) {α : Type} (w w₁ : C.World) (Q : α → α → Prop)
    (x x' : Exec α) : Prop :=
  ∀ m m', C.rel w m m' →
    match x m with
    | .error f => x' m' = .error f
    | .ok (a, m₁) => C.Ends w₁ Q a m₁ (x' m')

section

variable {C : Correspondence} {α β : Type} {p : Prop} {w w₁ w₂ : C.World} {Q : α → α → Prop}

theorem Correspondence.Sim.tracks (hl : ¬C.lax) {x x' : Exec α} (h : C.Sim True w w₁ Q x x') :
    C.Tracks w w₁ Q x x' := by
  intro m m' hm
  have followed := h.follows trivial m m' hm
  cases hx : x m with
  | error f =>
    rw [hx] at followed
    exact followed.resolve_left hl
  | ok r =>
    rw [hx] at followed
    exact followed.resolve_left fun h => hl h.1

theorem Correspondence.EvalSim.tracks (hl : ¬C.lax) {x x' : Eval α}
    (h : C.EvalSim True w w₁ Eq x x') : C.Tracks w w₁ Eq x.run x'.run := by
  intro m m' hm
  have followed := h.follows trivial m m' hm
  cases hx : x.run m with
  | error f =>
    rw [hx] at followed
    exact followed.resolve_left hl
  | ok r =>
    obtain ⟨outcome, m₁⟩ := r
    rw [hx] at followed
    have ends := followed.resolve_left fun h => hl h.1
    cases outcome with
    | ok a =>
      obtain ⟨a', m₁', he, rfl, hm₁⟩ := ends
      exact ⟨_, m₁', he, rfl, hm₁⟩
    | error e =>
      obtain ⟨m₁', he, hm₁⟩ := ends.resolve_left fun h => hl h.1
      exact ⟨_, m₁', he, rfl, hm₁⟩

theorem tracks_pure {a : α} : C.Tracks w w Eq (pure a) (pure a) :=
  fun _ m' hm => ⟨a, m', rfl, rfl, hm⟩

theorem tracks_bind {P : α → α → Prop} {R : β → β → Prop} {x x' : Exec α} {f f' : α → Exec β}
    (hx : C.Tracks w w₁ P x x') (hf : ∀ a a', P a a' → C.Tracks w₁ w₂ R (f a) (f' a')) :
    C.Tracks w w₂ R (x >>= f) (x' >>= f') := by
  intro m m' hm
  have first := hx m m' hm
  change match (x m >>= fun r => f r.1 r.2) with
    | .error e => (x' m' >>= fun r => f' r.1 r.2) = .error e
    | .ok (b, m₁) => C.Ends w₂ R b m₁ (x' m' >>= fun r => f' r.1 r.2)
  cases hx₁ : x m with
  | error e =>
    rw [hx₁] at first
    rw [first]
    rfl
  | ok r =>
    rw [hx₁] at first
    obtain ⟨a', m₁', he, hP, hm₁⟩ := first
    rw [he]
    exact hf r.1 a' hP r.2 m₁' hm₁

theorem tracks_bind_eq {R : β → β → Prop} {x x' : Exec α} {f f' : α → Exec β}
    (hx : C.Tracks w w₁ Eq x x') (hf : ∀ a, C.Tracks w₁ w₂ R (f a) (f' a)) :
    C.Tracks w w₂ R (x >>= f) (x' >>= f') :=
  tracks_bind hx fun a _ h => h ▸ hf a

theorem tracks_modify {f f' : Machine → Machine}
    (hf : ∀ m m', C.rel w m m' → C.rel w₁ (f m) (f' m')) :
    C.Tracks w w₁ Eq (modify f : Exec PUnit) (modify f') :=
  fun m m' hm => ⟨⟨⟩, f' m', rfl, rfl, hf m m' hm⟩

/-- Computations that bring nothing but the machine forward. -/
theorem tracks_unit {x x' : Exec PUnit} (h : C.Tracks w w₁ (fun _ _ => True) x x') :
    C.Tracks w w₁ Eq x x' := by
  intro m m' hm
  have ends := h m m' hm
  cases hx : x m with
  | error f =>
    rw [hx] at ends
    exact ends
  | ok r =>
    rw [hx] at ends
    obtain ⟨a', m₁', he, -, hm₁⟩ := ends
    exact ⟨a', m₁', he, rfl, hm₁⟩

theorem tracks_forM {x x' : α → Exec PUnit} (items : List α)
    (h : ∀ a ∈ items, C.Tracks w w Eq (x a) (x' a)) :
    C.Tracks w w Eq (items.forM x) (items.forM x') := by
  induction items with
  | nil => exact tracks_pure
  | cons a items ih =>
    rw [List.forM, List.forM]
    refine tracks_bind_eq (h a List.mem_cons_self) fun _ => ?_
    exact ih fun b hb => h b (List.mem_cons_of_mem _ hb)

/-- A part of a dispatch that may refuse, followed by another. -/
theorem tracks_attempt_bind {x x' : Attempt α} {f f' : α → Attempt β}
    (hx : C.Tracks w w₁ Eq x.run x'.run) (hf : ∀ a, C.Tracks w₁ w₁ Eq (f a).run (f' a).run) :
    C.Tracks w w₁ Eq (x >>= f).run (x' >>= f').run := by
  rw [ExceptT.run_bind, ExceptT.run_bind]
  refine tracks_bind_eq hx fun outcome => ?_
  cases outcome with
  | ok a => exact hf a
  | error e => exact tracks_pure

theorem tracks_attempt_ofExec {x x' : Exec α} (h : C.Tracks w w₁ Eq x x') :
    C.Tracks w w₁ Eq (Attempt.ofExec x).run (Attempt.ofExec x').run := by
  have run_ofExec : ∀ x : Exec α, (Attempt.ofExec x).run = x >>= fun a => pure (.ok a) :=
    fun _ => rfl
  rw [run_ofExec, run_ofExec]
  exact tracks_bind_eq h fun _ => tracks_pure

theorem tracks_attempt_mapM {x x' : α → Attempt β} (items : List α)
    (h : ∀ a ∈ items, C.Tracks w w Eq (x a).run (x' a).run) :
    C.Tracks w w Eq (items.mapM x).run (items.mapM x').run := by
  induction items with
  | nil => exact tracks_pure
  | cons a items ih =>
    rw [List.mapM_cons, List.mapM_cons]
    refine tracks_attempt_bind (h a List.mem_cons_self) fun b => ?_
    exact tracks_attempt_bind (ih fun c hc => h c (List.mem_cons_of_mem _ hc)) fun bs => tracks_pure

end

/-! ## Reported errors -/

section

variable {C : Correspondence} (L : C.Lawful) {α β : Type} {p : Prop} {w w₁ : C.World}

include L

theorem sim_reporting (line : Nat) {x x' : Eval Unit}
    (h : C.EvalSim p w w₁ (fun _ _ => True) x x') :
    C.Sim p w w₁ (fun _ _ => True) (Exec.reporting line x) (Exec.reporting line x') := by
  unfold Exec.reporting
  refine Follows.bind h ?_ ?_
  · intro outcome m r m₁ e hm
    cases outcome with
    | ok u =>
      cases e
      exact hm
    | error err =>
      cases e
      exact Array.push_ne_empty
  · rintro - outcome m second hR
    cases outcome with
    | ok u =>
      obtain ⟨u', m', rfl, -, hm⟩ := hR
      exact Or.inr ⟨⟨⟩, m', rfl, trivial, hm⟩
    | error err =>
      by_cases hl : C.lax
      · exact Or.inl ⟨hl, Array.push_ne_empty⟩
      · obtain ⟨m', rfl, hm⟩ := hR.resolve_left fun h => hl h.1
        exact Or.inr ⟨⟨⟩, _, rfl, trivial, L.reported _ hl hm⟩

omit L in
/-- Items that are computed one after another. -/
theorem evalSim_mapM {P : β → β → Prop} {x x' : α → Eval β} (items : List α)
    (h : ∀ p, ∀ a ∈ items, C.EvalSim p w w P (x a) (x' a)) :
    C.EvalSim p w w (List.Forall₂ P) (items.mapM x) (items.mapM x') := by
  induction items generalizing p with
  | nil => exact evalSim_pure fun _ => .nil
  | cons a items ih =>
    rw [List.mapM_cons, List.mapM_cons]
    refine evalSim_bind (h p a List.mem_cons_self) fun b b' => ?_
    refine evalSim_bind (ih fun p c hc => h p c (List.mem_cons_of_mem _ hc)) fun bs bs' => ?_
    exact evalSim_pure fun hp => .cons hp.1.2 hp.2

/-- Fields of one name that stand for each other. -/
def Correspondence.field (C : Correspondence) (f f' : String × Value) : Prop :=
  f'.1 = f.1 ∧ C.values f.2 f'.2

omit L in
theorem values_struct {fields fields' : List (String × Value)} (name : String)
    (h : List.Forall₂ C.field fields fields') :
    C.values (.struct name fields) (.struct name fields') := by
  suffices aux : fields' = fields.map (fun f => (f.1, f.2.rename C.across)) ∧
      fields.map (fun f => (f.1, f.2.rename C.within)) = fields by
    exact ⟨by rw [aux.1, Value.rename_struct], by rw [Value.rename_struct, aux.2]⟩
  induction h with
  | nil => exact ⟨rfl, rfl⟩
  | @cons f f' fields fields' hf _ ih =>
    obtain ⟨n, v⟩ := f
    obtain ⟨n', v'⟩ := f'
    obtain ⟨hn, hv', hv⟩ := hf
    dsimp only at hn hv' hv
    rw [hn, hv', List.map_cons, List.map_cons, ← ih.1, ih.2]
    exact ⟨rfl, congrArg (fun v => (n, v) :: fields) hv⟩

/-! ## Arguments of an entry point -/

section

variable {s : Shader} (hb : ∀ (p : Prop) (name : String), C.EvalSim p w w C.values
  (Eval.builtinValue (C.scope w) name) (Eval.builtinValue (C.scope' w) name))

include hb

theorem evalSim_argument (depth : Nat) : ∀ (p : Prop) (attributes : List Attribute) (type : TypeExpr),
    C.EvalSim p w w C.values (Eval.argument s (C.scope w) depth attributes type)
      (Eval.argument s (C.scope' w) depth attributes type) := by
  induction depth with
  | zero =>
    intro p attributes type
    exact evalSim_pure fun _ => values_plain_self fun _ => Value.rename_void
  | succ depth ih =>
    intro p attributes type
    rw [Eval.argument, Eval.argument]
    refine evalSim_bind_eq (evalSim_typeInfo L type) fun t => ?_
    split
    · refine evalSim_bind (hb _ _) fun v v' => evalSim_lift L fun hp => ?_
      exact alike_of_natural (f := fun v => v.coerceTo t) (fun _ => Value.natural_coerceTo t) hp.2
    · split
      · refine evalSim_bind (P := List.Forall₂ C.field)
          (evalSim_mapM _ fun p m _ => ?_) fun fields fields' => ?_
        · refine evalSim_bind (ih p m.attributes m.type) fun v v' => ?_
          exact evalSim_pure fun hp => ⟨rfl, hp.2⟩
        · exact evalSim_pure fun hp => values_struct t.name hp.2
      · exact evalSim_pure fun _ => values_plain_self fun _ => Value.rename_zeroOf t

/-- An argument of an entry point is bound, whatever becomes of its value. -/
theorem sim_bindArgument (entry : Function) {arg : Field} (hd : C.declares w arg.name) :
    C.Sim p w (C.declare w arg.name) (fun _ _ => True)
      (Exec.bindArgument s entry (C.scope w) arg) (Exec.bindArgument s entry (C.scope' w) arg) := by
  unfold Exec.bindArgument
  refine Follows.bind (evalSim_argument L hb _ p _ _) ?_ ?_
  · intro outcome m r m₁ e hm
    cases outcome with
    | ok v =>
      cases e
      exact hm
    | error err =>
      cases e
      exact Array.push_ne_empty
  · rintro - outcome m second hR
    cases outcome with
    | ok v =>
      obtain ⟨v', m', rfl, hv, hm⟩ := hR
      exact Or.inr ⟨⟨⟩, _, rfl, trivial, L.bind arg.name hd hv hm⟩
    | error err =>
      by_cases hl : C.lax
      · exact Or.inl ⟨hl, Array.push_ne_empty⟩
      · obtain ⟨m', rfl, hm⟩ := hR.resolve_left fun h => hl h.1
        refine Or.inr ⟨⟨⟩, _, rfl, trivial, ?_⟩
        exact L.bind arg.name hd (values_plain_self fun _ => Value.rename_void)
          (L.reported (err.at_ entry.startLine) hl hm)

end

/-! ## Overrides -/

section

variable {s : Shader} {S : String → Prop} {v : VarDecl} {config : Config}
  (hw : C.scope w = ScopeArena.root) (hw' : C.scope' w = ScopeArena.root)
  (hcall : C.Answers s (Eval.call s) (Eval.call s)) (hS : ∀ n, S n → C.sees w n)

include hw hw' hcall hS

/-- An expression at module scope. -/
theorem evalSim_atRoot {e : Expr} (h : e.Admitted C S) :
    C.EvalSim p w w C.values (Eval.expr s (Eval.call s) ScopeArena.root e)
      (Eval.expr s (Eval.call s) ScopeArena.root e) := by
  have value := Eval.evalSim_expr L hcall hS p e h
  rwa [hw, hw'] at value

theorem evalSim_overrideKind? (h : ∀ e ∈ v.value, e.Admitted C S) :
    C.EvalSim p w w Eq (Eval.overrideKind? s v) (Eval.overrideKind? s v) := by
  unfold Eval.overrideKind?
  cases v.type with
  | some type => exact evalSim_bind_eq (evalSim_typeInfo L type) fun t => evalSim_pure fun _ => rfl
  | none =>
    cases hv : v.value with
    | none => exact evalSim_pure fun _ => rfl
    | some default =>
      refine evalSim_bind (evalSim_atRoot L hw hw' hcall hS (h default hv)) fun u u' => ?_
      refine evalSim_pure fun hp => ?_
      rw [hp.2.1, Value.scalarKind?_rename]

theorem evalSim_overrideValue (h : ∀ e ∈ v.value, e.Admitted C S) :
    C.EvalSim p w w C.values (Eval.overrideValue s config v) (Eval.overrideValue s config v) := by
  unfold Eval.overrideValue
  cases config.overrideValue? v with
  | some x =>
    refine evalSim_bind_eq (evalSim_overrideKind? L hw hw' hcall hS h) fun kind => ?_
    refine evalSim_pure fun _ => values_plain_self fun ρ => ?_
    cases kind.getD .f32 <;> rfl
  | none =>
    cases hv : v.value with
    | some default => exact evalSim_atRoot L hw hw' hcall hS (h default hv)
    | none =>
      cases v.type with
      | some type =>
        refine evalSim_bind_eq (evalSim_typeInfo L type) fun t => ?_
        exact evalSim_pure fun _ => values_plain_self fun _ => Value.rename_zeroOf t
      | none => exact evalSim_pure fun _ => values_plain_self fun _ => Value.rename_f32 _

theorem evalSim_declareOverride (hd : C.declares w v.name) (h : ∀ e ∈ v.value, e.Admitted C S) :
    C.EvalSim p w w (fun _ _ => True) (Eval.declareOverride s config v)
      (Eval.declareOverride s config v) := by
  unfold Eval.declareOverride
  refine evalSim_bind (evalSim_overrideValue L hw hw' hcall hS h) fun u u' => ?_
  have bind : ∀ (q : Prop) (u u' : Value), C.EvalSim (q ∧ C.values u u') w w (fun _ _ => True)
      (Eval.ofExec (Exec.bind ScopeArena.root v.name (.value u)))
      (Eval.ofExec (Exec.bind ScopeArena.root v.name (.value u'))) := fun q u u' =>
    evalSim_ofExec (sim_modify (fun _ => rfl) fun hp m m' hm => by
      have bound := L.weaken v.name (L.bind v.name hd hp.2 hm)
      rwa [hw, hw'] at bound)
  cases v.type with
  | none => exact bind p u u'
  | some type =>
    refine evalSim_bind_eq (evalSim_typeInfo L type) fun t => ?_
    refine evalSim_bind (P := C.values) (evalSim_lift L fun hp => ?_)
      fun r r' => bind _ r r'
    exact alike_of_natural (f := fun v => v.coerceTo t) (fun _ => Value.natural_coerceTo t) hp.2

end

end

/-! ## The size of a workgroup -/

/-- The function that a dispatch runs and the size of its workgroups. -/
def Attempt.entryPoint (s : Shader) (entry : String) : Attempt (Function × Extent) := do
  match s.function? entry with
  | none => refuse (.entryNotFound entry)
  | some f =>
    let size ← workgroupSize s f
    if size.toList.contains 0 then refuse (.zeroWorkgroupSize entry)
    return (f, size)

section

variable {C : Correspondence} (L : C.Lawful) {w : C.World} {s : Shader} {S : String → Prop}
  (hl : ¬C.lax) (hw : C.scope w = ScopeArena.root) (hw' : C.scope' w = ScopeArena.root)
  (hcall : C.Answers s (Eval.call s) (Eval.call s)) (hS : ∀ n, S n → C.sees w n)

include L hl hw hw' hcall hS

theorem tracks_workgroupAxis {e : Expr} (h : e.Admitted C S) :
    C.Tracks w w Eq (Attempt.workgroupAxis s e).run (Attempt.workgroupAxis s e).run := by
  have size : C.EvalSim True w w Eq
      (do (← Eval.expr s (Eval.call s) ScopeArena.root e).unsigned)
      (do (← Eval.expr s (Eval.call s) ScopeArena.root e).unsigned) := by
    refine evalSim_bind (evalSim_atRoot L hw hw' hcall hS h) fun v v' => evalSim_lift L fun hp => ?_
    exact alike_of_invariant (fun _ => Value.unsigned_rename) hp.2
  unfold Attempt.workgroupAxis
  refine tracks_attempt_bind (tracks_attempt_ofExec (size.tracks hl)) fun outcome => ?_
  cases outcome with
  | ok n => exact tracks_pure
  | error reason => exact tracks_pure

theorem tracks_entryPoint (entry : String)
    (h : ∀ f, s.function? entry = some f → ∀ a, f.attribute? "workgroup_size" = some a →
      ∀ e ∈ a.args, e.Admitted C S) :
    C.Tracks w w Eq (Attempt.entryPoint s entry).run (Attempt.entryPoint s entry).run := by
  unfold Attempt.entryPoint
  cases hf : s.function? entry with
  | none => exact tracks_pure
  | some f =>
    refine tracks_attempt_bind ?_ fun size => ?_
    · unfold Attempt.workgroupSize
      cases ha : f.attribute? "workgroup_size" with
      | none => exact tracks_pure
      | some a =>
        refine tracks_attempt_bind (tracks_attempt_mapM _ fun e he => ?_) fun sizes => ?_
        · exact tracks_workgroupAxis L hl hw hw' hcall hS (h f hf a ha e (List.mem_of_mem_take he))
        · split <;> exact tracks_pure
    · split <;> exact tracks_pure

end

namespace Bridge

variable {b : Bridge} {calls : String → Prop} {p : Prop} {w : Situation} {s : Shader}

/-! ## Entry points -/

/-- What a name is bound to in the very scope, if it is a value. -/
def boundValue (name : String) (scope : ScopeId) (m : Machine) : Run Value :=
  match m.scopes.findIn? scope ("@" ++ name) with
  | some (.value v) => pure v
  | _ => throw (RunCause.unsupported ("@builtin(" ++ name ++ ")")).unplaced

theorem builtinValue_run (scope : ScopeId) (name : String) (m : Machine) :
    (Eval.builtinValue scope name).run m = .ok (boundValue name scope m, m) := by
  unfold Eval.builtinValue boundValue
  rw [Eval.get_bind_run]
  cases m.scopes.findIn? scope ("@" ++ name) with
  | none => rfl
  | some slot => cases slot <;> rfl

theorem evalSim_builtinValue (hi : w.inside) (name : String) :
    (b.correspondence calls).EvalSim p w w (b.correspondence calls).values
      (Eval.builtinValue w.here.scope name) (Eval.builtinValue w.here.scope name) := by
  refine evalSim_of_read (builtinValue_run _ name) (builtinValue_run _ name) fun _ m m' hm => ?_
  have found := hm.arenas.found w.here.scope ("@" ++ name) fun h => hm.inside hi h.1
  unfold boundValue
  cases hf : m.scopes.findIn? w.here.scope ("@" ++ name) with
  | none =>
    rw [hf] at found
    rw [rel_none found]
    rfl
  | some slot =>
    rw [hf] at found
    obtain ⟨slot', hs', hs⟩ := rel_some found
    rw [hs']
    cases slot with
    | value v =>
      obtain ⟨v', rfl, hv⟩ := hs
      exact ⟨v', rfl, hv⟩
    | view view =>
      obtain ⟨j, rfl, -⟩ := hs
      rfl

/-! ## Declarations -/

/-- The situation at module scope. -/
def Situation.ofModule (vars : List VarDecl) (start start' : Memory) (bound bound' : List Bound) :
    Situation :=
  { here := ⟨ScopeArena.root, fun _ => False⟩, outer := [], inside := False, vars, start, start',
    bound, bound' }

variable {vars : List VarDecl} {start start' : Memory} {bound bound' : List Bound}
  {config : Config}

/-- The initializer of a declaration reads nothing hidden. -/
theorem evalSim_declareHere (hcall : (b.correspondence calls).Answers s (Eval.call s) (Eval.call s))
    {v : VarDecl}
    (h : ∀ e ∈ v.value, e.Admitted (b.correspondence calls) fun n => n ∉ b.hidden) :
    (b.correspondence calls).EvalSim p (.ofModule vars start start' bound bound')
      (.ofModule vars start start' bound bound') (fun _ _ => True)
      (Eval.declare s (Eval.call s) ScopeArena.root v)
      (Eval.declare s (Eval.call s) ScopeArena.root v) :=
  evalSim_weaken (Eval.evalSim_declare (w := Situation.ofModule vars start start' bound bound')
    (lawful b calls) hcall (fun _ => Or.inl) trivial h) id (fun _ _ _ h => h)
    fun _ _ _ => (lawful b calls).weaken v.name

end Bridge

/-- The expressions that running a declaration evaluates. -/
def Declaration.exprs : Declaration → List Expr
  | .value _ v => v.value.toList
  | .constAssert e => [e]
  | _ => []

/-- The variables that a declaration adds to those of the module: none where it is a resource. -/
def Shader.addedVars (s : Shader) : Declaration → List VarDecl
  | .value .var v => if (s.reflection.resourceNamed? v.name).isNone then [v] else []
  | _ => []

namespace Bridge

variable {b : Bridge} {calls : String → Prop} {p : Prop} {s : Shader} {vars : List VarDecl}
  {start start' : Memory} {bound bound' : List Bound} {config : Config}

/-- A declaration is run in both modules. -/
theorem sim_declaration (hcall : (b.correspondence calls).Answers s (Eval.call s) (Eval.call s))
    (d : Declaration)
    (h : ∀ e ∈ d.exprs, e.Admitted (b.correspondence calls) fun n => n ∉ b.hidden) :
    (b.correspondence calls).Sim p (.ofModule vars start start' bound bound')
      (.ofModule (vars ++ s.addedVars d) start start' bound bound') (fun _ _ => True)
      (Exec.declaration s config d) (Exec.declaration s config d) := by
  have L := lawful b calls
  refine sim_reporting L d.line ?_
  have none_added : ∀ x : Eval Unit, s.addedVars d = [] →
      (b.correspondence calls).EvalSim p (.ofModule vars start start' bound bound')
        (.ofModule vars start start' bound bound') (fun _ _ => True) x x →
      (b.correspondence calls).EvalSim p (.ofModule vars start start' bound bound')
        (.ofModule (vars ++ s.addedVars d) start start' bound bound') (fun _ _ => True) x x := by
    intro x he hx
    rwa [he, List.append_nil]
  have nothing : (b.correspondence calls).EvalSim p (.ofModule vars start start' bound bound')
      (.ofModule vars start start' bound bound') (fun _ _ => True) (pure () : Eval Unit) (pure ()) :=
    evalSim_pure fun _ => trivial
  cases d with
  | value kind v =>
    have hv : ∀ e ∈ v.value, e.Admitted (b.correspondence calls) fun n => n ∉ b.hidden :=
      fun e he => h e (Option.mem_toList.2 he)
    cases kind with
    | const => exact none_added _ rfl (evalSim_declareHere hcall hv)
    | override => exact none_added _ rfl (evalSim_declareOverride
        (w := Situation.ofModule vars start start' bound bound') L rfl rfl hcall
        (fun _ => Or.inl) trivial hv)
    | var =>
      rw [Eval.declaration]
      by_cases hr : (s.reflection.resourceNamed? v.name).isNone = true
      · rw [if_pos hr, show s.addedVars (.value .var v) = [v] from if_pos hr]
        have added : (b.correspondence calls).EvalSim p (.ofModule vars start start' bound bound')
            (.ofModule (vars ++ [v]) start start' bound bound') (fun _ _ => True)
            (Eval.ofExec (modify fun m => { m with moduleVars := m.moduleVars ++ [v] }))
            (Eval.ofExec (modify fun m => { m with moduleVars := m.moduleVars ++ [v] })) := by
          refine evalSim_ofExec (sim_modify (fun _ => rfl) fun _ m m' hm => ?_)
          exact { hm with
            moduleVars := congrArg (fun vs => vs ++ [v]) hm.moduleVars
            moduleVars' := congrArg (fun vs => vs ++ [v]) hm.moduleVars' }
        exact evalSim_bind added fun _ _ => evalSim_declareHere hcall hv
      · rw [if_neg hr]
        exact none_added _ (if_neg hr) nothing
  | constAssert e =>
    refine none_added _ rfl (Eval.evalSim_constAssert
      (w := Situation.ofModule vars start start' bound bound') L hcall (fun _ => Or.inl) ?_)
    exact h e List.mem_cons_self
  | _ => exact none_added _ rfl nothing

theorem sim_declarations (hcall : (b.correspondence calls).Answers s (Eval.call s) (Eval.call s))
    (ds : List Declaration)
    (h : ∀ d ∈ ds, ∀ e ∈ d.exprs, e.Admitted (b.correspondence calls) fun n => n ∉ b.hidden) :
    (b.correspondence calls).Sim p (.ofModule vars start start' bound bound')
      (.ofModule (vars ++ ds.flatMap s.addedVars) start start' bound bound') (fun _ _ => True)
      (ds.forM (Exec.declaration s config)) (ds.forM (Exec.declaration s config)) := by
  induction ds generalizing p vars with
  | nil =>
    rw [List.flatMap_nil, List.append_nil]
    exact sim_pure fun _ => trivial
  | cons d ds ih =>
    rw [List.forM, List.flatMap_cons, ← List.append_assoc]
    refine sim_bind (sim_declaration hcall d (h d List.mem_cons_self)) fun _ _ => ?_
    exact ih fun e he => h e (List.mem_cons_of_mem _ he)

end Bridge

/-! ## Several declarations -/

namespace Correspondence

variable (C : Correspondence)

/-- The world after declarations. -/
def declareAll (w : C.World) (names : List String) : C.World := names.foldl C.declare w

variable {C} (L : C.Lawful) {w : C.World} {n : String}

include L

theorem scope_declareAll (names : List String) : C.scope (C.declareAll w names) = C.scope w := by
  induction names generalizing w with
  | nil => rfl
  | cons name names ih => exact ih.trans (L.scope_declare w name)

theorem inner_declareAll (h : C.inner w) (names : List String) : C.inner (C.declareAll w names) := by
  induction names generalizing w with
  | nil => exact h
  | cons name names ih => exact ih (L.inner_declare name h)

theorem sees_declareAll (h : C.sees w n) (names : List String) : C.sees (C.declareAll w names) n := by
  induction names generalizing w with
  | nil => exact h
  | cons name names ih => exact ih (L.sees_declare name h)

theorem sees_of_mem_declareAll (hi : C.inner w) {names : List String} (hn : n ∈ names) :
    C.sees (C.declareAll w names) n := by
  induction names generalizing w with
  | nil => cases hn
  | cons name names ih =>
    obtain rfl | hn := List.mem_cons.1 hn
    · exact sees_declareAll L (L.sees_declared n hi) names
    · exact ih (L.inner_declare name hi) hn

theorem rel_of_declareAll (names : List String) {m m' : Machine}
    (h : C.rel (C.declareAll w names) m m') : C.rel w m m' := by
  induction names generalizing w with
  | nil => exact h
  | cons name names ih => exact L.weaken name (ih h)

/-- Names are declared one after another, in one scope. -/
theorem sim_forM_declare {α : Type} {p : Prop} {x x' : α → Exec PUnit} (name : α → String)
    (items : List α)
    (h : ∀ p w₁ a, a ∈ items → C.scope w₁ = C.scope w → C.scope' w₁ = C.scope' w → C.inner w₁ →
      C.Sim p w₁ (C.declare w₁ (name a)) (fun _ _ => True) (x a) (x' a)) (hi : C.inner w) :
    C.Sim p w (C.declareAll w (items.map name)) (fun _ _ => True) (items.forM x)
      (items.forM x') := by
  induction items generalizing p w with
  | nil => exact sim_pure fun _ => trivial
  | cons a items ih =>
    rw [List.forM, List.forM, List.map_cons]
    refine sim_bind (h p w a List.mem_cons_self rfl rfl hi) fun _ _ => ?_
    refine ih (fun p w₁ c hc hs hs' => ?_) (L.inner_declare _ hi)
    exact h p w₁ c (List.mem_cons_of_mem _ hc) (hs.trans (L.scope_declare w _))
      (hs'.trans (L.scope'_declare w _))

end Correspondence

/-! ## Invocations -/

/-- An invocation runs in a scope below the root, which is closed behind it. -/
theorem Exec.runInvocation_eq (s : Shader) (plan : DispatchPlan) (index : Nat) :
    runInvocation s plan index = (do
      resetVariables s ((plan.invocation index).localIndex = 0)
      modify fun m => { m with discarded := false }
      inScope ScopeArena.root fun scope => do
        ((plan.invocation index).builtins plan.workgroups).forM fun (name, v) =>
          bind scope name (.value v)
        plan.entry.args.forM (bindArgument s plan.entry scope)
        let _ ← Eval.stmts s (Eval.call s) scope plan.entry.body
        return ()
      modify fun m => { m with callResults := [] }) := by
  simp only [runInvocation, beginInvocation, endInvocation, inScope, bind_assoc, pure_bind]

namespace Bridge

variable {b : Bridge} {calls : String → Prop} {p : Prop} {s : Shader} {vars : List VarDecl}
  {start start' : Memory} {bound bound' : List Bound}

theorem tracks_resetVariables
    (hcall : (b.correspondence calls).Answers s (Eval.call s) (Eval.call s))
    (h : ∀ v ∈ vars, ∀ e ∈ v.value, e.Admitted (b.correspondence calls) fun n => n ∉ b.hidden)
    (newWorkgroup : Bool) :
    (b.correspondence calls).Tracks (.ofModule vars start start' bound bound')
      (.ofModule vars start start' bound bound') Eq (Exec.resetVariables s newWorkgroup)
      (Exec.resetVariables s newWorkgroup) := by
  have all : (b.correspondence calls).Tracks (.ofModule vars start start' bound bound')
      (.ofModule vars start start' bound bound') Eq
      ((vars.filter fun v => newWorkgroup || v.storage != some "workgroup").forM fun v =>
        Exec.reporting v.line (Eval.declare s (Eval.call s) ScopeArena.root v))
      ((vars.filter fun v => newWorkgroup || v.storage != some "workgroup").forM fun v =>
        Exec.reporting v.line (Eval.declare s (Eval.call s) ScopeArena.root v)) := by
    refine tracks_forM _ fun v hv => tracks_unit (Sim.tracks (fun h => h) ?_)
    exact sim_reporting (lawful b calls) v.line
      (evalSim_declareHere hcall (h v (List.mem_of_mem_filter hv)))
  intro m m' hm
  have found := all m m' hm
  have reset : ∀ n : Machine, n.moduleVars = vars → Exec.resetVariables s newWorkgroup n =
      ((vars.filter fun v => newWorkgroup || v.storage != some "workgroup").forM fun v =>
        Exec.reporting v.line (Eval.declare s (Eval.call s) ScopeArena.root v)) n := by
    rintro n rfl
    rfl
  rw [reset m hm.moduleVars, reset m' hm.moduleVars']
  exact found

/-- The body of an entry point, with its arguments bound. -/
theorem sim_entryBody (hcall : (b.correspondence calls).Answers s (Eval.call s) (Eval.call s))
    {plan : DispatchPlan} (h : Stmt.AllAdmitted (b.correspondence calls)
      (fun n => n ∉ b.hidden ∨ n ∈ plan.entry.args.map Field.name) plan.entry.body)
    (builtins : List (String × Value)) (hb : ∀ x ∈ builtins, ∀ ρ, rename ρ x.2 = x.2)
    {w : Situation} (hi : w.inside) :
    (b.correspondence calls).Sim p w w (fun _ _ => True)
      (do
        builtins.forM fun (name, v) => Exec.bind w.here.scope name (.value v)
        plan.entry.args.forM (Exec.bindArgument s plan.entry w.here.scope)
        let _ ← Eval.stmts s (Eval.call s) w.here.scope plan.entry.body
        return ())
      (do
        builtins.forM fun (name, v) => Exec.bind w.here.scope name (.value v)
        plan.entry.args.forM (Exec.bindArgument s plan.entry w.here.scope)
        let _ ← Eval.stmts s (Eval.call s) w.here.scope plan.entry.body
        return ()) := by
  have L := lawful b calls
  let C := b.correspondence calls
  have binds : C.Sim p w (C.declareAll w (builtins.map Prod.fst)) (fun _ _ => True)
      (builtins.forM fun (name, v) => Exec.bind w.here.scope name (.value v))
      (builtins.forM fun (name, v) => Exec.bind w.here.scope name (.value v)) := by
    refine sim_forM_declare L Prod.fst builtins (fun p w₁ x hx hs hs' hi₁ => ?_) hi
    refine sim_modify (fun _ => rfl) fun _ m m' hm => ?_
    have bound := L.bind x.1 trivial (values_plain_self (hb x hx)) hm
    rw [hs, hs'] at bound
    exact bound
  have hi₁ := inner_declareAll L hi (builtins.map Prod.fst)
  have scope₁ := scope_declareAll L (w := w) (builtins.map Prod.fst)
  refine sim_weaken (sim_bind binds fun _ _ => ?_) id (fun _ _ _ h => h)
    fun _ _ _ => rel_of_declareAll L (builtins.map Prod.fst)
  generalize C.declareAll w (builtins.map Prod.fst) = w₁ at hi₁ scope₁
  have args : C.Sim (p ∧ True) w₁ (C.declareAll w₁ (plan.entry.args.map Field.name))
      (fun _ _ => True) (plan.entry.args.forM (Exec.bindArgument s plan.entry w.here.scope))
      (plan.entry.args.forM (Exec.bindArgument s plan.entry w.here.scope)) := by
    refine sim_forM_declare L Field.name plan.entry.args (fun p w₂ arg _ hs _ hi₂ => ?_) hi₁
    have argument : C.Sim p w₂ (C.declare w₂ arg.name) (fun _ _ => True)
        (Exec.bindArgument s plan.entry w₂.here.scope arg)
        (Exec.bindArgument s plan.entry w₂.here.scope arg) :=
      sim_bindArgument L (fun _ => evalSim_builtinValue hi₂) plan.entry trivial
    rwa [show w₂.here.scope = w.here.scope from hs.trans scope₁] at argument
  have hi₂ := inner_declareAll L hi₁ (plan.entry.args.map Field.name)
  have scope₂ := scope_declareAll L (w := w₁) (plan.entry.args.map Field.name)
  have hsees : ∀ n, (n ∉ b.hidden ∨ n ∈ plan.entry.args.map Field.name) →
      C.sees (C.declareAll w₁ (plan.entry.args.map Field.name)) n := fun n hn =>
    hn.elim (fun hn => sees_declareAll L (Or.inl hn) _) (sees_of_mem_declareAll L hi₁)
  refine sim_weaken (sim_bind args fun _ _ => ?_) id (fun _ _ _ h => h)
    fun _ _ _ => rel_of_declareAll L (plan.entry.args.map Field.name)
  generalize C.declareAll w₁ (plan.entry.args.map Field.name) = w₂ at hi₂ scope₂ hsees
  have body := Eval.sim_stmts L hcall plan.entry.body ((p ∧ True) ∧ True) w₂ _ hi₂ hsees h
  have hscope : w₂.here.scope = w.here.scope := scope₂.trans scope₁
  rw [show C.scope w₂ = w.here.scope from hscope, show C.scope' w₂ = w.here.scope from hscope] at body
  exact sim_bind body fun _ _ => sim_pure fun _ => trivial

theorem rename_builtins (ρ : Renaming) (i : Invocation) (workgroups : Extent) :
    ∀ x ∈ i.builtins workgroups, rename ρ x.2 = x.2 := by
  have plain : ∀ e : Extent, rename ρ e.value = e.value := by
    intro e
    simp [Extent.value, Function.comp_def]
  unfold Invocation.builtins
  simp [plain]

variable {plan : DispatchPlan}

theorem tracks_runInvocation
    (hcall : (b.correspondence calls).Answers s (Eval.call s) (Eval.call s))
    (hv : ∀ v ∈ vars, ∀ e ∈ v.value, e.Admitted (b.correspondence calls) fun n => n ∉ b.hidden)
    (h : Stmt.AllAdmitted (b.correspondence calls)
      (fun n => n ∉ b.hidden ∨ n ∈ plan.entry.args.map Field.name) plan.entry.body) (index : Nat) :
    (b.correspondence calls).Tracks (.ofModule vars start start' bound bound')
      (.ofModule vars start start' bound bound') Eq (Exec.runInvocation s plan index)
      (Exec.runInvocation s plan index) := by
  have L := lawful b calls
  rw [Exec.runInvocation_eq]
  refine tracks_bind_eq (tracks_resetVariables hcall hv _) fun _ => ?_
  refine tracks_bind_eq (tracks_modify fun m m' hm => { hm with discarded := rfl }) fun _ => ?_
  refine tracks_bind_eq (tracks_unit (Sim.tracks (fun h => h) (sim_inCall L ?_))) fun _ => ?_
  · intro w hi _
    exact sim_entryBody hcall h _ (fun x hx ρ => rename_builtins ρ _ _ x hx) hi
  · exact tracks_modify fun m m' hm => { hm with callResults := rfl, callResults' := rfl }

/-- A run of invocations, one after another. -/
theorem tracks_runInvocations
    (hcall : (b.correspondence calls).Answers s (Eval.call s) (Eval.call s))
    (hv : ∀ v ∈ vars, ∀ e ∈ v.value, e.Admitted (b.correspondence calls) fun n => n ∉ b.hidden)
    (h : Stmt.AllAdmitted (b.correspondence calls)
      (fun n => n ∉ b.hidden ∨ n ∈ plan.entry.args.map Field.name) plan.entry.body)
    (count index : Nat) :
    (b.correspondence calls).Tracks (.ofModule vars start start' bound bound')
      (.ofModule vars start start' bound bound') Eq (Exec.runInvocations s plan count index)
      (Exec.runInvocations s plan count index) := by
  induction count generalizing index with
  | zero => exact tracks_pure
  | succ count ih =>
    rw [Exec.runInvocations]
    exact tracks_bind_eq (tracks_runInvocation hcall hv h index) fun _ => ih (index + 1)

end Bridge

end Wgsl
