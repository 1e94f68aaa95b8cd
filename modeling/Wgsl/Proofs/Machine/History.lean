import Wgsl.Proofs.Layout.Laying
import Wgsl.Proofs.Machine.Holdings
import Wgsl.Proofs.Machine.Noninterference
import Wgsl.Proofs.Machine.Oblivious
import Wgsl.Proofs.Parse.Program

/-! # Dispatches leave no trace

What was run before makes no difference to a dispatch. Starting a module forgets all that earlier
runs left behind except for memory, the notes of what is bound and the layouts; the first two are
empty again after every run, and the third answer as they would if nothing had been run.

* `Call`: what can be asked of a shader again and again.
* `Machine.Idle`: the state between two calls.
* `Call.idle_run`: every call leads from an idle machine to an idle machine.
* `Attempt.Indistinct`: what two dispatches have in common.
* `Attempt.dispatch_afresh`: a dispatch after any calls is like one of a fresh machine.
-/

namespace Wgsl
set_option autoImplicit false

/-! ## Calls -/

/-- What can be asked of a shader again and again. -/
inductive Call where
  | execute (config : Config)
  | dispatch (entry : String) (workgroups : Extent) (g : BindGroups) (config : Config)

/-- Makes a call. A refused dispatch leaves a machine to go on with as well. -/
def Call.run (s : Shader) : Call → Exec Unit
  | .execute config => Exec.start s config
  | .dispatch entry workgroups g config => do
    let _ ← (Attempt.dispatch s entry workgroups g config).run

/-- Nothing is bound, and layouts answer as the settled ones do. -/
structure Machine.Idle (settled : Layouts) (nodes : List Node) (m : Machine) : Prop where
  memory : m.memory = .empty
  bound : m.bound = []
  coherent : settled.Coherent nodes m.layouts

variable {settled : Layouts} {nodes : List Node} {m m' m₁ : Machine}

theorem Machine.Idle.fresh (settled : Layouts) (nodes : List Node) :
    Machine.Idle settled nodes { layouts := settled } :=
  ⟨rfl, rfl, LayoutM.coherent_self settled nodes⟩

/-- Starting a module forgets whatever else may differ. -/
theorem Machine.Idle.twins_reset (h : m.Idle settled nodes) (h' : m'.Idle settled nodes) :
    m.reset.Twins settled nodes m'.reset where
  same := by
    unfold reset
    rw [h.memory, h.bound, h'.memory, h'.bound]
  coherent := h.coherent
  coherent' := h'.coherent
  typed := nofun

theorem Machine.Retains.idle (h : m.Retains m₁) (hm : m.Idle settled nodes)
    (hl : settled.Coherent nodes m₁.layouts) : m₁.Idle settled nodes where
  memory := Memory.eq_empty_of_outline (h.outline.trans (congrArg _ hm.memory))
  bound := h.bound.trans hm.bound
  coherent := hl

theorem Exec.SameEnd.coherent {α : Type} {a : α} {r : Except Fault (α × Machine)}
    (h : SameEnd settled nodes (.ok (a, m)) r) : settled.Coherent nodes m.layouts := by
  obtain ⟨f, hf, -⟩ | ⟨_, _, _, hm, -, twins⟩ := h
  · cases hf
  · cases hm
    exact twins.coherent

/-! ## Binding and handing back -/

namespace Machine

/-- Binding a resource does not look at layouts and leaves the variables of the module alone. -/
theorem bindResource_layouts (r : Resource) (m : Machine) (g : BindGroups) :
    (m.bindResource r g).1.moduleVars = m.moduleVars ∧ ∀ l,
    ({ m with layouts := l }).bindResource r g =
      ({ (m.bindResource r g).1 with layouts := l }, (m.bindResource r g).2) := by
  unfold bindResource
  dsimp only
  cases r.kind <;> rcases g.find? ⟨r.group, r.binding⟩ with _ | ⟨_ | _ | _ | _⟩ <;>
    exact ⟨rfl, fun _ => rfl⟩

theorem bindResources_layouts (resources : List Resource) (m : Machine) (g : BindGroups) :
    (m.bindResources resources g).1.moduleVars = m.moduleVars ∧ ∀ l,
    ({ m with layouts := l }).bindResources resources g =
      ({ (m.bindResources resources g).1 with layouts := l }, (m.bindResources resources g).2) := by
  induction resources generalizing m g with
  | nil => exact ⟨rfl, fun _ => rfl⟩
  | cons r resources ih =>
    obtain ⟨vars, bound⟩ := bindResource_layouts r m g
    obtain ⟨rest_vars, rest⟩ := ih (m.bindResource r g).1 (m.bindResource r g).2
    refine ⟨rest_vars.trans vars, fun l => ?_⟩
    have step : ({ m with layouts := l }).bindResources (r :: resources) g =
        (({ m with layouts := l }).bindResource r g).1.bindResources resources
          (({ m with layouts := l }).bindResource r g).2 := rfl
    rw [step, bound l]
    exact rest l

end Machine

section

variable {s : Shader} {hs : settled.Settled} {hapart : LayoutM.TypesApart nodes}
  (h : (Conduct.oblivious hs hapart).AdmitsShader s) {entry : String} {config : Config}

include h

/-- From binding the resources to handing them back, nothing depends on layouts. -/
theorem Exec.oblivious_onResources (plan : DispatchPlan) (g : BindGroups)
    (hentry : s.function? entry = some plan.entry) :
    (onResources s plan g).Oblivious settled nodes := by
  refine oblivious_bind (oblivious_modifyGet (fun m l => ?_) fun m hm => ?_) fun rest => ?_
  · rw [(m.bindResources_layouts s.reflection.resources g).2 l]
  · unfold Machine.Typed
    rw [(m.bindResources_layouts s.reflection.resources g).1]
    exact hm
  · refine oblivious_bind (Conduct.inside_runInvocations h hentry _ _) fun _ => ?_
    exact oblivious_modifyGet (fun _ _ => rfl) fun _ hm => hm

omit h in
/-- After handing back, nothing is bound. -/
theorem Exec.onResources_unbound {plan : DispatchPlan} {g : BindGroups}
    {outcome : Except Fault BindGroups}
    (hrun : (Except.ok <$> onResources s plan g) m = .ok (outcome, m₁)) :
    m₁.memory = .empty ∧ m₁.bound = [] := by
  rw [map_eq_pure_bind] at hrun
  obtain ⟨g', m₂, hrun, hend⟩ := bind_ok hrun
  cases hend
  obtain ⟨_, m₃, -, hrun⟩ := bind_ok hrun
  obtain ⟨_, m₄, -, hrun⟩ := bind_ok hrun
  cases hrun
  exact ⟨rfl, rfl⟩

omit h in
theorem Attempt.run_started (hl : s.reflection.layoutErrors = []) (m : Machine) :
    (started s entry config).run m = (s.program.declarations.forM (Exec.declaration s config) >>=
      fun _ => (entryPoint s entry).run) m.reset := by
  have unrefused : started s entry config =
      ofExec (Exec.start s config) >>= fun _ => entryPoint s entry := by
    unfold started
    rw [hl]
    rfl
  rw [unrefused, ExceptT.run_bind, ofExec, ExceptT.run_lift, bind_map_left]
  rfl

omit h in
theorem Attempt.function?_of_started (hl : s.reflection.layoutErrors = []) {f : Function}
    {size : Extent} (hrun : (started s entry config).run m = .ok (.ok (f, size), m₁)) :
    s.function? entry = some f := by
  rw [run_started hl] at hrun
  obtain ⟨_, m₂, -, hrun⟩ := Exec.bind_ok hrun
  exact Bridge.function?_of_entryPoint hrun

omit h in
/-- A dispatch that has started deals with the resources. -/
theorem Attempt.run_dispatch (s : Shader) (entry : String) (workgroups : Extent) (g : BindGroups)
    (m : Machine) : (dispatch s entry workgroups g config).run m =
      ((started s entry config).run m >>= fun r =>
        match r.1 with
        | .error f => .ok (.error f, r.2)
        | .ok (f, size) => (Except.ok <$> Exec.onResources s ⟨f, workgroups, size⟩ g) r.2) := by
  rw [dispatch_eq, ExceptT.run_bind]
  refine congrArg _ (funext fun r => ?_)
  obtain ⟨outcome, n⟩ := r
  cases outcome <;> rfl

/-! ## One call -/

variable (hl : s.reflection.layoutErrors = [])

theorem Exec.sameEnd_start (config : Config) (hm : m.Idle settled nodes)
    (hm' : m'.Idle settled nodes) :
    SameEnd settled nodes (start s config m) (start s config m') :=
  Conduct.inside_declarations h config m.reset m'.reset (hm.twins_reset hm')

include hl

theorem Attempt.sameEnd_started (entry : String) (config : Config) (hm : m.Idle settled nodes)
    (hm' : m'.Idle settled nodes) : Exec.SameEnd settled nodes ((started s entry config).run m)
      ((started s entry config).run m') := by
  rw [run_started hl, run_started hl]
  refine Exec.oblivious_bind (Conduct.inside_declarations h config) (fun _ => ?_) m.reset m'.reset
    (hm.twins_reset hm')
  exact Conduct.eval_entryPoint h entry

/-- Two dispatches of idle machines end alike. -/
theorem Attempt.sameEnd_dispatch (entry : String) (workgroups : Extent) (g : BindGroups)
    (config : Config) (hm : m.Idle settled nodes) (hm' : m'.Idle settled nodes) :
    Exec.SameEnd settled nodes ((dispatch s entry workgroups g config).run m)
      ((dispatch s entry workgroups g config).run m') := by
  rw [run_dispatch, run_dispatch]
  obtain ⟨e, he, he'⟩ | ⟨outcome, n, n', hn, hn', twins⟩ :=
    sameEnd_started h hl entry config hm hm'
  · rw [he, he']
    exact Or.inl ⟨e, rfl, rfl⟩
  · rw [hn, hn']
    cases outcome with
    | error f => exact .ok twins
    | ok found =>
      obtain ⟨f, size⟩ := found
      have ran := Exec.oblivious_onResources h ⟨f, workgroups, size⟩ g (function?_of_started hl hn)
      exact (ran n n' twins).bind fun _ => Exec.oblivious_pure _

omit h in
/-- Before the resources are bound, nothing is. -/
theorem Attempt.retains_started {outcome : Except Fault (Function × Extent)}
    (hrun : (started s entry config).run m = .ok (outcome, m₁)) : m.Retains m₁ := by
  rw [run_started hl] at hrun
  have shader : Conduct.retaining.AdmitsShader s := Conduct.admitsShader_of_all (fun _ => trivial) s
  have kept := Exec.retains_bind (Conduct.inside_declarations shader config)
    (fun _ => Conduct.eval_entryPoint shader entry) m.reset outcome m₁ hrun
  exact ⟨kept.bound, kept.outline⟩

theorem Attempt.idle_dispatch (hm : m.Idle settled nodes) {workgroups : Extent} {g : BindGroups}
    {outcome : Except Fault BindGroups}
    (hrun : (dispatch s entry workgroups g config).run m = .ok (outcome, m₁)) :
    m₁.Idle settled nodes := by
  have coherent : settled.Coherent nodes m₁.layouts := by
    have same := sameEnd_dispatch h hl entry workgroups g config hm hm
    rw [hrun] at same
    exact same.coherent
  rw [run_dispatch] at hrun
  cases hstarted : (started s entry config).run m with
  | error e =>
    rw [hstarted] at hrun
    cases hrun
  | ok r =>
    rw [hstarted] at hrun
    obtain ⟨found, n⟩ := r
    cases found with
    | error e =>
      -- refused: nothing has been bound yet
      cases hrun
      exact (retains_started hl hstarted).idle hm coherent
    | ok found =>
      obtain ⟨memory, bound⟩ := Exec.onResources_unbound hrun
      exact ⟨memory, bound, coherent⟩

/-- Every call leads from an idle machine to an idle machine. -/
theorem Call.idle_run (c : Call) (hm : m.Idle settled nodes) (hrun : c.run s m = .ok ((), m₁)) :
    m₁.Idle settled nodes := by
  cases c with
  | execute config =>
    have same := Exec.sameEnd_start h config hm hm
    have shader : Conduct.retaining.AdmitsShader s := Conduct.admitsShader_of_all (fun _ => trivial) s
    have kept := Conduct.inside_declarations shader config m.reset () m₁ hrun
    change Exec.start s config m = _ at hrun
    rw [hrun] at same
    have held : m.Retains m₁ := ⟨kept.bound, kept.outline⟩
    exact held.idle hm same.coherent
  | dispatch entry workgroups g config =>
    obtain ⟨outcome, m₂, hrun, hend⟩ := Exec.bind_ok hrun
    cases hend
    exact Attempt.idle_dispatch h hl hm hrun

/-- By induction over the calls. -/
theorem Call.idle_forM (calls : List Call) (hm : m.Idle settled nodes)
    (hrun : calls.forM (Call.run s) m = .ok ((), m₁)) : m₁.Idle settled nodes := by
  induction calls generalizing m with
  | nil =>
    cases hrun
    exact hm
  | cons c calls ih =>
    rw [List.forM_eq_forM, List.forM_cons] at hrun
    obtain ⟨_, m₂, hfirst, hrest⟩ := Exec.bind_ok hrun
    exact ih (c.idle_run h hl hm hfirst) hrest

end

/-! ## A dispatch after any calls -/

/-- Two outcomes of a dispatch: the same fault, or the same success or refusal with the same
resources for the host, the same errors, the same names at module scope and as many scopes open. A
refusal leaves the host its resources as they were. -/
def Attempt.Indistinct (first second : Except Fault (Except Fault BindGroups × Machine)) : Prop :=
  match first with
  | .error f => second = .error f
  | .ok (outcome, n) => ∃ n', second = .ok (outcome, n') ∧ n'.diagnostics = n.diagnostics ∧
    n'.scopes.scope? ScopeArena.root = n.scopes.scope? ScopeArena.root ∧
    n'.scopes.depth = n.scopes.depth

theorem Attempt.indistinct_of_sameEnd {first second : Except Fault (Except Fault BindGroups × Machine)}
    (h : Exec.SameEnd settled nodes first second) : Indistinct first second := by
  obtain ⟨f, rfl, rfl⟩ | ⟨outcome, n, n', rfl, rfl, twins⟩ := h
  · exact rfl
  · refine ⟨n', rfl, ?_, ?_, ?_⟩ <;> rw [twins.same]

variable {p : Program} {s : Shader} {l : Layouts}

theorem Shader.settled_ofProgram (h : Shader.ofProgram p = .ok (s, l)) : l.Settled := by
  unfold ofProgram at h
  cases hr : (Reflection.ofProgram p).run (Layouts.ofProgram p) with
  | error e =>
    rw [hr] at h
    cases h
  | ok r =>
    rw [hr] at h
    cases h
    exact Reflection.settled_ofProgram hr

/-- A dispatch does not depend on what was run before, be it other dispatches that succeeded or were
refused, with whatever resources and overrides. -/
theorem Attempt.dispatch_afresh {source : String} (hsource : Program.ofSource source = .ok p)
    (hp : Shader.ofProgram p = .ok (s, l)) (hl : s.reflection.layoutErrors = []) {calls : List Call}
    (hcalls : calls.forM (Call.run s) { layouts := l } = .ok ((), m)) (entry : String)
    (workgroups : Extent) (g : BindGroups) (config : Config) :
    Indistinct ((dispatch s entry workgroups g config).run { layouts := l })
      ((dispatch s entry workgroups g config).run m) := by
  have settled := Shader.settled_ofProgram hp
  have shader := Conduct.oblivious_admitsShader settled (LayoutM.typesApart_ofSource hsource) hp
  have fresh := Machine.Idle.fresh l p.nodes
  exact indistinct_of_sameEnd
    (sameEnd_dispatch shader hl entry workgroups g config fresh
      (Call.idle_forM shader hl calls fresh hcalls))

/-- A refused dispatch and one that reports an error, of a function that assigns a name that is bound
nowhere. -/
def Call.misspelt : List Call :=
  [.dispatch "g" ⟨1, 1, 1⟩ ⟨[]⟩ [], .dispatch "f" ⟨1, 1, 1⟩ ⟨[]⟩ []]

/-- The errors after these calls. -/
def Call.reports (source : String) (calls : List Call) : Except Fault (Nat × List String) := do
  let p ← Program.ofSource source
  let (s, l) ← Shader.ofProgram p
  let (_, m) ← calls.forM (Call.run s) { layouts := l }
  return (m.diagnostics.size, s.reflection.layoutErrors)

theorem Call.of_reports {source : String} {calls : List Call} {n : Nat} {layoutErrors : List String}
    (h : reports source calls = .ok (n, layoutErrors)) : ∃ p s l m,
      Program.ofSource source = .ok p ∧ Shader.ofProgram p = .ok (s, l) ∧
      s.reflection.layoutErrors = layoutErrors ∧
      calls.forM (Call.run s) { layouts := l } = .ok ((), m) ∧ m.diagnostics.size = n := by
  have bind_ok : ∀ {α β : Type} {x : Except Fault α} {f : α → Except Fault β} {b : β},
      (x >>= f) = .ok b → ∃ a, x = .ok a ∧ f a = .ok b := by
    intro α β x f b hb
    cases x with
    | error e => cases hb
    | ok a => exact ⟨a, rfl, hb⟩
  obtain ⟨p, hsource, h⟩ := bind_ok h
  obtain ⟨⟨s, l⟩, hp, h⟩ := bind_ok h
  obtain ⟨⟨_, m⟩, hcalls, h⟩ := bind_ok h
  cases h
  exact ⟨p, s, l, m, hsource, hp, rfl, hcalls, rfl⟩

set_option maxRecDepth 10000 in
theorem Attempt.dispatch_afresh_misspelt : ∃ p s l m,
    Program.ofSource "@workgroup_size fn f() \x7b b = c; \x7d" = .ok p ∧
      Shader.ofProgram p = .ok (s, l) ∧ s.reflection.layoutErrors = [] ∧
      Call.misspelt.forM (Call.run s) { layouts := l } = .ok ((), m) ∧ m.diagnostics.size = 1 ∧
      Indistinct ((dispatch s "f" ⟨2, 1, 1⟩ ⟨[]⟩ []).run { layouts := l })
        ((dispatch s "f" ⟨2, 1, 1⟩ ⟨[]⟩ []).run m) := by
  have reported : Call.reports "@workgroup_size fn f() \x7b b = c; \x7d" Call.misspelt =
      .ok (1, []) := Fault.ok_of_toOption (by decide +kernel)
  obtain ⟨p, s, l, m, hsource, hp, hl, hcalls, hm⟩ := Call.of_reports reported
  exact ⟨p, s, l, m, hsource, hp, hl, hcalls, hm,
    dispatch_afresh hsource hp hl hcalls "f" ⟨2, 1, 1⟩ ⟨[]⟩ []⟩

end Wgsl
