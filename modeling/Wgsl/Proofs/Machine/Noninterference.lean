import Mathlib
import Wgsl.Proofs.Machine.Shared
import Wgsl.Proofs.Reflect.Resources

/-! # A dispatch touches only what reflection lists

The resources that reflection lists for an entry point are all that its dispatch can read or write.
Two hosts that agree on them get the same outcome, the same errors and the same contents back, and
every other slot keeps its contents.

* `Shader.Separate`: what is asked of a module.
* `Attempt.Alike`: what two dispatches have in common.
* `Attempt.alike_dispatch`: the dispatches of one entry point over two such hosts.
-/

namespace Wgsl
set_option autoImplicit false

/-! ## What is asked of a module and its hosts -/

/-- The mention is of no resource and calls no declared function. -/
def Mention.standsAlone (s : Shader) : Mention → Bool
  | .variable_ name => (s.reflection.resourceNamed? name).isNone
  | .call name => (s.function? name).isNone
  | _ => true

/-- The expression mentions no resource and calls no declared function. -/
def Expr.standsAlone (s : Shader) (e : Expr) : Bool := e.mentions.all (Mention.standsAlone s)

namespace Shader

/-- Resource variables have names and slots of their own, what is evaluated at module scope stands
alone, and no update of a `for` declares a name. -/
structure Separate (s : Shader) : Prop where
  names : (s.reflection.resources.map Resource.name).Nodup
  slots : (s.reflection.resources.map Resource.slot).Nodup
  declarations : ∀ d ∈ s.program.declarations, ∀ e ∈ d.exprs, e.standsAlone s = true
  workgroupSizes : ∀ f ∈ s.program.functions, ∀ a ∈ f.attribute? "workgroup_size",
    ∀ e ∈ a.args, e.standsAlone s = true
  updates : ∀ f ∈ s.program.functions, Stmt.allPlainUpdates f.body = true

/-- Every resource that is bound where a variable is declared is of its kind. -/
def Accepts (s : Shader) (g : BindGroups) : Prop :=
  ∀ r ∈ s.reflection.resources, ∀ h ∈ g.find? r.slot, r.kind.accepts h = true

/-- The slots of the resources that reflection lists for a function. -/
def touched (s : Shader) (entry : String) : List BindSlot :=
  (s.reflection.functionResources entry).map Resource.slot

instance (s : Shader) : Decidable s.Separate :=
  decidable_of_iff
    ((s.reflection.resources.map Resource.name).Nodup ∧
      (s.reflection.resources.map Resource.slot).Nodup ∧
      (∀ d ∈ s.program.declarations, ∀ e ∈ d.exprs, e.standsAlone s = true) ∧
      (∀ f ∈ s.program.functions, ∀ a ∈ f.attribute? "workgroup_size",
        ∀ e ∈ a.args, e.standsAlone s = true) ∧
      ∀ f ∈ s.program.functions, Stmt.allPlainUpdates f.body = true)
    ⟨fun ⟨a, b, c, d, e⟩ => ⟨a, b, c, d, e⟩, fun ⟨a, b, c, d, e⟩ => ⟨a, b, c, d, e⟩⟩

instance (s : Shader) (g : BindGroups) : Decidable (s.Accepts g) :=
  inferInstanceAs (Decidable (∀ r ∈ s.reflection.resources, ∀ h ∈ g.find? r.slot,
    r.kind.accepts h = true))

variable {s : Shader} {entry : String} {r : Resource}

/-- The name of a variable whose slot is not touched is hidden. -/
theorem Separate.mem_hidden (hs : s.Separate) (hr : r ∈ s.reflection.resources)
    (hslot : r.slot ∉ s.touched entry) : r.name ∈ s.hidden entry := by
  refine Shader.mem_hidden.2 ⟨List.mem_map_of_mem hr, fun hin => hslot ?_⟩
  obtain ⟨v, hv, hname⟩ := List.mem_map.1 hin
  have hvr : v ∈ s.reflection.resources := by
    unfold Reflection.functionResources at hv
    cases hf : s.reflection.function? entry with
    | none =>
      rw [hf] at hv
      cases hv
    | some info =>
      rw [hf] at hv
      obtain ⟨x, -, hx⟩ := List.mem_filterMap.1 hv
      exact List.mem_of_find?_eq_some hx
  have : v = r := List.inj_on_of_nodup_map hs.names hvr hr hname
  exact List.mem_map.2 ⟨v, hv, this ▸ rfl⟩

/-- What stands alone may be evaluated wherever resources are hidden. -/
theorem admitted_of_standsAlone {C : Correspondence} (ha : C.address)
    (hcalls : ∀ name, s.function? name = none → C.calls name) {e : Expr}
    (h : e.standsAlone s = true) : e.Admitted C fun n => n ∉ s.hidden entry := by
  have hallowed : ∀ (ms : List Mention) (locals : List (List String)),
      ms.all (Mention.standsAlone s) = true → Mention.Allowed (s.hidden entry) C.calls locals ms := by
    intro ms
    induction ms with
    | nil => exact fun _ _ => trivial
    | cons m ms ih =>
      intro locals hms
      rw [List.all_cons, Bool.and_eq_true] at hms
      refine ⟨?_, ih _ hms.2⟩
      cases m with
      | variable_ name =>
        refine Or.inl fun hin => ?_
        obtain ⟨v, hv, -⟩ := Reflection.resourceNamed?_of_mem (Shader.mem_hidden.1 hin).1
        have hnone : (s.reflection.resourceNamed? name).isNone = true := hms.1
        rw [hv] at hnone
        cases hnone
      | call name => exact hcalls name (Option.isNone_iff_eq_none.1 hms.1)
      | _ => trivial
  have admitted := (Expr.admitted_of_allowed (H := s.hidden entry) ha e []).2 (hallowed _ _ h)
  have known : Locals.Known (s.hidden entry) [] = fun n => n ∉ s.hidden entry := by
    funext n
    simp [Locals.Known]
  rwa [known] at admitted

/-- The variables of a module come from its declarations. -/
theorem exprs_of_mem_addedVars {d : Declaration} {v : VarDecl} (hv : v ∈ s.addedVars d) :
    d.exprs = v.value.toList := by
  unfold addedVars at hv
  split at hv
  · split at hv
    · rw [List.mem_singleton.1 hv]
      rfl
    · cases hv
  · cases hv

end Shader

/-! ## The parts of a dispatch -/

namespace Attempt

/-- What a dispatch does before it looks at the resources. -/
def started (s : Shader) (entry : String) (config : Config) : Attempt (Function × Extent) := do
  match s.reflection.layoutErrors.head? with
  | some message => throw (.layout message)
  | none => pure ()
  ofExec (Exec.start s config)
  entryPoint s entry

end Attempt

/-- What a dispatch does with the resources. -/
def Exec.onResources (s : Shader) (plan : DispatchPlan) (g : BindGroups) : Exec BindGroups := do
  let rest ← modifyGet fun m =>
    let (m, rest) := m.bindResources s.reflection.resources g
    (rest, m)
  runInvocations s plan plan.invocationCount 0
  finish rest

theorem Attempt.dispatch_eq (s : Shader) (entry : String) (workgroups : Extent) (g : BindGroups)
    (config : Config) : dispatch s entry workgroups g config = (do
      let (f, size) ← started s entry config
      ofExec (Exec.onResources s ⟨f, workgroups, size⟩ g)) := by
  unfold dispatch prepare started
  cases s.reflection.layoutErrors.head? with
  | some message => rfl
  | none =>
    simp only [bind_assoc]
    refine congrArg _ (funext fun _ => ?_)
    unfold entryPoint
    cases s.function? entry with
    | none => rfl
    | some f =>
      simp only [bind_assoc]
      refine congrArg _ (funext fun size => ?_)
      split
      · rfl
      · rfl

/-- Getting a dispatch ready is starting the module and binding the resources. -/
theorem Attempt.prepare_eq (s : Shader) (entry : String) (workgroups : Extent) (g : BindGroups)
    (config : Config) : prepare s entry workgroups g config = (do
      let (f, size) ← started s entry config
      let rest ← ofExec (modifyGet fun m =>
        let (m, rest) := m.bindResources s.reflection.resources g
        (rest, m))
      return (⟨f, workgroups, size⟩, rest)) := by
  unfold prepare started
  cases s.reflection.layoutErrors.head? with
  | some message => rfl
  | none =>
    simp only [bind_assoc]
    refine congrArg _ (funext fun _ => ?_)
    unfold entryPoint
    cases s.function? entry with
    | none => rfl
    | some f =>
      simp only [bind_assoc]
      refine congrArg _ (funext fun size => ?_)
      split
      · rfl
      · rfl

/-! ## Starting -/

namespace Bridge

/-- Names are hidden, and nothing has a counterpart. -/
def blind (hidden : List String) : Bridge where
  hidden := hidden
  buffer? _ := none
  texture? _ := none
  buffer_inj h := nomatch h
  texture_inj h := nomatch h

variable {s : Shader} {entry : String} {config : Config} {m m₁ : Machine}

theorem related_reset (hidden : List String) (m : Machine) :
    (blind hidden).Related (.ofModule [] m.memory m.memory m.bound m.bound) m.reset m.reset where
  layouts := rfl
  diagnostics := rfl
  callResults := rfl
  callResults' := rfl
  moduleVars := rfl
  moduleVars' := rfl
  callDepth := rfl
  discarded := rfl
  bound := rfl
  bound' := rfl
  memory := carried_self ⟨nofun, nofun⟩ ⟨nofun, nofun⟩
  arenas := by
    refine ⟨ScopeArena.nested_new, rfl, fun _ => rfl, fun id name _ => ?_⟩
    have none_found : (ScopeArena.new : ScopeArena Slot).findIn? id name = none := by
      by_cases hid : id < 1
      · obtain rfl : id = 0 := Nat.lt_one_iff.1 hid
        rfl
      · exact ScopeArena.findIn?_of_depth_le (Nat.le_of_not_lt hid)
    have reset : m.reset.scopes = ScopeArena.new := rfl
    rw [reset, none_found]
    exact .none
  frames f hf := by
    obtain rfl := List.mem_singleton.1 hf
    exact ⟨Nat.zero_lt_one, fun _ h => h.elim⟩
  order _ hf := (List.not_mem_nil hf).elim
  inside h := h.elim

/-- Computed twice, the same comes out. -/
theorem related_self {C : Correspondence} {α : Type} {w w₁ : C.World} {Q : α → α → Prop}
    {x : Exec α} (hx : C.Tracks w w₁ Q x x) (hm : C.rel w m m) {a : α} (he : x m = .ok (a, m₁)) :
    C.rel w₁ m₁ m₁ := by
  have ends := hx m m hm
  rw [he] at ends
  obtain ⟨a', m₁', he', -, hm₁⟩ := ends
  cases he'
  exact hm₁

theorem answers_none (b : Bridge) (s : Shader) :
    (b.correspondence fun name => s.function? name = none).Answers s (Eval.call s) (Eval.call s) := by
  intro p w name f vs vs' hn hf
  rw [show s.function? name = none from hn] at hf
  cases hf

theorem attempt_bind_ok {α β : Type} {x : Attempt α} {k : α → Attempt β} {c : β}
    (h : (x >>= k).run m = .ok (.ok c, m₁)) :
    ∃ a m', x.run m = .ok (.ok a, m') ∧ (k a).run m' = .ok (.ok c, m₁) := by
  rw [ExceptT.run_bind] at h
  obtain ⟨outcome, m', hx, hk⟩ := Exec.bind_ok h
  cases outcome with
  | ok a => exact ⟨a, m', hx, hk⟩
  | error e => cases hk

theorem function?_of_entryPoint {f : Function} {size : Extent}
    (h : (Attempt.entryPoint s entry).run m = .ok (.ok (f, size), m₁)) :
    s.function? entry = some f := by
  unfold Attempt.entryPoint at h
  cases hf : s.function? entry with
  | none =>
    rw [hf] at h
    cases h
  | some g =>
    rw [hf] at h
    obtain ⟨size', m', -, h⟩ := attempt_bind_ok h
    split at h
    · cases h
    · cases h
      rfl

/-- A dispatch that has started has run the declarations of the module. -/
theorem started_ok {f : Function} {size : Extent}
    (h : (Attempt.started s entry config).run m = .ok (.ok (f, size), m₁)) :
    ∃ m', s.program.declarations.forM (Exec.declaration s config) m.reset = .ok (⟨⟩, m') ∧
      (Attempt.entryPoint s entry).run m' = .ok (.ok (f, size), m₁) := by
  unfold Attempt.started at h
  cases hl : s.reflection.layoutErrors.head? with
  | some message =>
    rw [hl] at h
    cases h
  | none =>
    rw [hl] at h
    obtain ⟨_, m', hstart, h⟩ := attempt_bind_ok h
    refine ⟨m', ?_, h⟩
    change (Exec.start s config m >>= fun r => Except.ok (Except.ok r.1, r.2)) = _ at hstart
    cases hr : Exec.start s config m with
    | error e =>
      rw [hr] at hstart
      cases hstart
    | ok r =>
      rw [hr] at hstart
      cases hstart
      exact hr

/-- A dispatch that can start has bound the resources. -/
theorem prepare_ok {workgroups : Extent} {g rest : BindGroups} {plan : DispatchPlan}
    (h : (Attempt.prepare s entry workgroups g config).run m = .ok (.ok (plan, rest), m₁)) :
    ∃ m', (Attempt.started s entry config).run m =
        .ok (.ok (plan.entry, plan.workgroupSize), m') ∧
      m'.bindResources s.reflection.resources g = (m₁, rest) := by
  rw [Attempt.prepare_eq] at h
  obtain ⟨⟨f, size⟩, m', hstarted, h⟩ := attempt_bind_ok h
  obtain ⟨rest', m'', hbound, h⟩ := attempt_bind_ok h
  cases hbound
  cases h
  exact ⟨m', hstarted, rfl⟩

/-- A module that is started knows nothing of what will be hidden. -/
theorem related_started (hs : s.Separate)
    (hentry : ∀ f, s.function? entry = some f → f ∈ s.program.functions) {f : Function}
    {size : Extent} (h : (Attempt.started s entry config).run m = .ok (.ok (f, size), m₁)) :
    s.function? entry = some f ∧ (blind (s.hidden entry)).Related
      (.ofModule (s.program.declarations.flatMap s.addedVars) m.memory m.memory m.bound m.bound)
      m₁ m₁ := by
  let C := (blind (s.hidden entry)).correspondence fun name => s.function? name = none
  have hcall : C.Answers s (Eval.call s) (Eval.call s) := answers_none _ s
  have admitted : ∀ e : Expr, e.standsAlone s = true → e.Admitted C fun n => n ∉ s.hidden entry :=
    fun e he => Shader.admitted_of_standsAlone trivial (fun _ hn => hn) he
  obtain ⟨m', run, h⟩ := started_ok h
  refine ⟨function?_of_entryPoint h, ?_⟩
  have declared : C.Tracks (.ofModule [] m.memory m.memory m.bound m.bound)
      (.ofModule ([] ++ s.program.declarations.flatMap s.addedVars) m.memory m.memory m.bound m.bound)
      (fun _ _ => True) (s.program.declarations.forM (Exec.declaration s config))
      (s.program.declarations.forM (Exec.declaration s config)) :=
    Correspondence.Sim.tracks (fun h => h) (sim_declarations hcall s.program.declarations
      fun d hd e he => admitted e (hs.declarations d hd e he))
  have started := related_self declared (related_reset _ m) run
  have entered := tracks_entryPoint (lawful _ _) (fun h => h) (w := .ofModule
    ([] ++ s.program.declarations.flatMap s.addedVars) m.memory m.memory m.bound m.bound) rfl rfl
    hcall (fun _ => Or.inl) entry fun f hf a ha e he =>
      admitted e (hs.workgroupSizes f (hentry f hf) a ha e he)
  exact related_self entered started h

end Bridge

/-! ## The dispatch -/

/-- Two outcomes of a dispatch over two hosts: the same success, refusal or fault, the same errors,
and the same contents of the slots that are shown; every other slot keeps its contents. -/
def Attempt.Alike (shown : List BindSlot) (start start' : BindGroups)
    (first second : Except Fault (Except Fault BindGroups × Machine)) : Prop :=
  match first with
  | .error f => second = .error f
  | .ok (.error f, n) => ∃ n', second = .ok (.error f, n') ∧ n'.diagnostics = n.diagnostics
  | .ok (.ok g, n) => ∃ g' n', second = .ok (.ok g', n') ∧ n'.diagnostics = n.diagnostics ∧
    (∀ slot ∈ shown, g'.find? slot = g.find? slot) ∧
    ∀ slot ∉ shown, g.find? slot = start.find? slot ∧ g'.find? slot = start'.find? slot

variable {p : Program} {s : Shader} {l : Layouts} {start start' : BindGroups} {m : Machine}

/-- From a started module, the resources that are shown are all that a dispatch deals with. -/
theorem Exec.alike_onResources (hp : Shader.ofProgram p = .ok (s, l)) (hs : s.Separate)
    {entry : String} (hg : s.Accepts start) (hg' : s.Accepts start')
    (hagree : ∀ slot ∈ s.touched entry, start.find? slot = start'.find? slot)
    {plan : DispatchPlan} (hentry : s.function? entry = some plan.entry) (hm : m.bound = [])
    {before : Memory} (hstarted : (Bridge.blind (s.hidden entry)).Related
      (.ofModule (s.program.declarations.flatMap s.addedVars) before before [] []) m m) :
    match onResources s plan start m with
    | .error f => onResources s plan start' m = .error f
    | .ok (g, n) => ∃ g' n', onResources s plan start' m = .ok (g', n') ∧
      n'.diagnostics = n.diagnostics ∧
      (∀ slot ∈ s.touched entry, g'.find? slot = g.find? slot) ∧
      ∀ slot ∉ s.touched entry, g.find? slot = start.find? slot ∧ g'.find? slot = start'.find? slot := by
  have depth : 0 < m.scopes.depth := (hstarted.frames _ List.mem_cons_self).1
  have keeps : ∀ g : BindGroups, m.Keeps g g := fun g =>
    ⟨by rw [hm]; exact nofun, by rw [hm]; exact nofun, fun _ _ => rfl⟩
  have none_bound : ∀ r ∈ s.reflection.resources, ∀ x ∈ m.bound, x.slot ≠ r.slot := by
    rw [hm]
    exact fun _ _ => nofun
  have begun : (Bridge.blind (s.hidden entry)).Binds (s.touched entry)
      (s.program.declarations.flatMap s.addedVars) start start' m m start start' := by
    refine ⟨⟨?_, ⟨nofun, nofun⟩, ⟨nofun, nofun⟩, ?_, ?_, ?_⟩, keeps _, keeps _, hagree⟩
    · exact hstarted.rebased rfl rfl rfl ⟨nofun, nofun⟩ ⟨nofun, nofun⟩ hstarted.arenas depth
    · rw [hm]
      exact .nil
    · rw [hm]
      exact nofun
    · rw [hm]
      exact nofun
  obtain ⟨b, hhidden, hbinds⟩ := begun.bindResources s.reflection.resources hs.slots none_bound
    none_bound (fun r hr h hh => hg r hr h hh) (fun r hr h hh => hg' r hr h hh)
    fun r hr hslot => hs.mem_hidden hr hslot
  have hb : b.hidden = s.hidden entry := hhidden
  let C := b.correspondence (s.CanCall entry)
  have L : C.Lawful := Bridge.lawful b _
  obtain ⟨hprogram, -⟩ := Shader.ofProgram_ok hp
  have updates : ∀ f ∈ p.functions, Stmt.allPlainUpdates f.body = true := hprogram ▸ hs.updates
  have bodies : ∀ name f, name ∈ (CallGraph.ofProgram p).transitive entry →
      s.function? name = some f →
      Stmt.AllAdmitted C (fun n => n ∉ b.hidden ∨ n ∈ f.args.map Field.name) f.body := by
    intro name f hreach hf
    rw [hb]
    exact Shader.body_admitted trivial (fun h => h) hp updates (Option.isSome_iff_exists.2 ⟨_, hentry⟩)
      (fun _ h => h) hreach hf
  have hcall : C.Answers s (Eval.call s) (Eval.call s) := by
    refine Eval.answers_callWithin L (fun name f hn hf => ?_) maxCallDepth
    obtain hreach | hnone := hn
    · exact bodies name f (hprogram ▸ hreach) hf
    · rw [hf] at hnone
      cases hnone
  have initializers : ∀ v ∈ s.program.declarations.flatMap s.addedVars, ∀ e ∈ v.value,
      e.Admitted C fun n => n ∉ b.hidden := by
    intro v hv e he
    obtain ⟨d, hd, hv⟩ := List.mem_flatMap.1 hv
    rw [hb]
    refine Shader.admitted_of_standsAlone trivial (fun _ hn => Or.inr hn)
      (hs.declarations d hd e ?_)
    rw [Shader.exprs_of_mem_addedVars hv]
    exact Option.mem_toList.2 he
  have run := Bridge.tracks_runInvocations hcall initializers
    (bodies entry plan.entry (CallGraph.mem_transitive_self _ entry) hentry) plan.invocationCount 0
    _ _ hbinds.shares.related
  have unfolded : ∀ g : BindGroups, onResources s plan g m =
      (runInvocations s plan plan.invocationCount 0 (m.bindResources s.reflection.resources g).1 >>=
        fun r => .ok (r.2.handBack (m.bindResources s.reflection.resources g).2, r.2.unbound)) :=
    fun _ => rfl
  rw [unfolded, unfolded]
  cases hr : runInvocations s plan plan.invocationCount 0
      (m.bindResources s.reflection.resources start).1 with
  | error f =>
    rw [hr] at run
    rw [run]
    rfl
  | ok r =>
    rw [hr] at run
    obtain ⟨_, n', hr', -, hn⟩ := run
    rw [hr']
    refine ⟨_, _, rfl, hn.diagnostics, fun slot hslot => ?_, fun slot hslot => ?_⟩
    · exact hbinds.find?_handBack_shown hn hslot
    · exact hbinds.find?_handBack_other hn hslot

/-- **Noninterference.** Two hosts that agree on the resources that reflection lists for an entry
point cannot be told apart by its dispatch, and it changes no other resource. -/
theorem Attempt.alike_dispatch (hp : Shader.ofProgram p = .ok (s, l)) (hs : s.Separate)
    (entry : String) (hg : s.Accepts start) (hg' : s.Accepts start')
    (hagree : ∀ slot ∈ s.touched entry, start.find? slot = start'.find? slot)
    (workgroups : Extent) (config : Config) (hm : m.bound = []) :
    Alike (s.touched entry) start start' ((dispatch s entry workgroups start config).run m)
      ((dispatch s entry workgroups start' config).run m) := by
  obtain ⟨hprogram, -⟩ := Shader.ofProgram_ok hp
  have run : ∀ g : BindGroups, (dispatch s entry workgroups g config).run m =
      ((started s entry config).run m >>= fun r =>
        match r.1 with
        | .error f => .ok (.error f, r.2)
        | .ok (f, size) => Exec.onResources s ⟨f, workgroups, size⟩ g r.2 >>= fun r =>
          .ok (.ok r.1, r.2)) := by
    intro g
    rw [dispatch_eq, ExceptT.run_bind]
    refine congrArg _ (funext fun r => ?_)
    obtain ⟨outcome, n⟩ := r
    cases outcome <;> rfl
  rw [run, run]
  cases hstarted : (started s entry config).run m with
  | error f => exact rfl
  | ok r =>
    obtain ⟨outcome, m₁⟩ := r
    cases outcome with
    | error f => exact ⟨m₁, rfl, rfl⟩
    | ok found =>
      obtain ⟨f, size⟩ := found
      obtain ⟨hentry, hrelated⟩ := Bridge.related_started hs
        (fun f hf => hprogram ▸ (Shader.mem_of_function? hp hf).1) hstarted
      have hm₁ : m₁.bound = [] := hrelated.bound.trans hm
      rw [hm] at hrelated
      let plan : DispatchPlan := ⟨f, workgroups, size⟩
      have hplan : s.function? entry = some plan.entry := hentry
      have alike := Exec.alike_onResources hp hs hg hg' hagree hplan hm₁ hrelated
      change Alike _ _ _ (Exec.onResources s ⟨f, workgroups, size⟩ start m₁ >>= fun r =>
        .ok (.ok r.1, r.2)) (Exec.onResources s ⟨f, workgroups, size⟩ start' m₁ >>= fun r =>
        .ok (.ok r.1, r.2))
      cases hr : Exec.onResources s ⟨f, workgroups, size⟩ start m₁ with
      | error f =>
        rw [hr] at alike
        rw [alike]
        rfl
      | ok r =>
        rw [hr] at alike
        obtain ⟨g', n', hr', rest⟩ := alike
        rw [hr']
        exact ⟨g', n', rfl, rest⟩

/-! ## Two counters -/

/-- A storage variable of one number. -/
def counter (name : String) (binding : Int64) : Declaration :=
  let number (n : Int64) : Expr := .literal ⟨0, 0⟩ (.int n none)
  .value .var {
    name
    type := some (.named 0 [] "u32")
    storage := some "storage"
    access := some "read_write"
    value := none
    attributes := [.mk "group" [number 0] 0, .mk "binding" [number binding] 0]
    line := 0 }

/-- A module with two counters, whose entry point counts the first one. -/
def twoCounters : Program where
  declarations := [counter "a" 0, counter "b" 1, .function {
    name := "main", args := [], returnType := none, returnAttributes := []
    attributes := [.mk "compute" [] 0, .mk "workgroup_size" [.literal ⟨0, 0⟩ (.int 1 none)] 0]
    body := [.simple ⟨0, .increment .increment (.var ⟨0, 0⟩ "a")⟩]
    startLine := 0, endLine := 0 }]

/-- A host with a number for each counter. -/
def counterHost (a b : UInt8) : BindGroups :=
  ⟨[(⟨0, 0⟩, .storage #[a, 0, 0, 0]), (⟨0, 1⟩, .storage #[b, 0, 0, 0])]⟩

/-- The second counter cannot be told from what is done with the first one. -/
theorem Attempt.alike_dispatch_twoCounters : ∃ s l, Shader.ofProgram twoCounters = .ok (s, l) ∧
    s.touched "main" = [⟨0, 0⟩] ∧
    Alike (s.touched "main") (counterHost 1 2) (counterHost 1 3)
      ((dispatch s "main" ⟨1, 1, 1⟩ (counterHost 1 2) []).run { layouts := l })
      ((dispatch s "main" ⟨1, 1, 1⟩ (counterHost 1 3) []).run { layouts := l }) := by
  have checked : (match Shader.ofProgram twoCounters with
      | .ok (s, _) => decide (s.touched "main" = [⟨0, 0⟩] ∧ s.Separate ∧
        s.Accepts (counterHost 1 2) ∧ s.Accepts (counterHost 1 3))
      | .error _ => false) = true := by cbv
  cases h : Shader.ofProgram twoCounters with
  | error f =>
    rw [h] at checked
    cases checked
  | ok r =>
    obtain ⟨s, l⟩ := r
    rw [h] at checked
    obtain ⟨touched, separate, accepts, accepts'⟩ := of_decide_eq_true checked
    refine ⟨s, l, rfl, touched, alike_dispatch h separate "main" accepts accepts' ?_ ⟨1, 1, 1⟩ [] rfl⟩
    rw [touched]
    intro slot hslot
    rw [List.mem_singleton.1 hslot]
    rfl

end Wgsl
