import Wgsl.Proofs.Machine.Consts
import Wgsl.Proofs.Machine.Following

/-! # Every run comes to an end

Starts and dispatches are the same with and without bounds. For declarations, functions and the size
of a workgroup this is so wherever a machine stands; the arguments of an entry point are built from
what layouts answer, so there it takes a machine that answers as the settled layouts do.

* `Machine.Vacant`: a machine on which nothing is running.
* `Shader.Recursive`: a type that stands for a structure which holds itself.
* `Unbounded.alike_argument`: by induction on how many structures may be within each other.
* `Unbounded.stages`: the stages of a dispatch.
* `Unbounded.comes_to_an_end`: no start and no dispatch goes on for ever.
-/

namespace Wgsl
set_option autoImplicit false

/-! ## Structures within an argument -/

namespace Shader

/-- The structure that a type stands for: the one with the name of its layout. -/
def structOf? (s : Shader) (l : Layouts) (t : TypeExpr) : Option StructDecl :=
  match (LayoutM.typeInfo t).run l with
  | .ok (info, _) => s.program.structs.find? fun d => d.name = info.name
  | .error _ => none

/-- A structure has a member whose type stands for another one. -/
def Holds (s : Shader) (l : Layouts) (d d' : StructDecl) : Prop :=
  ∃ m ∈ d.members, s.structOf? l m.type = some d'

/-- The type stands for a structure within which there is one that holds itself. -/
def Recursive (s : Shader) (l : Layouts) (t : TypeExpr) : Prop :=
  ∃ d d', s.structOf? l t = some d ∧ Relation.ReflTransGen (s.Holds l) d d' ∧
    Relation.TransGen (s.Holds l) d' d'

theorem mem_of_structOf? {s : Shader} {l : Layouts} {t : TypeExpr} {d : StructDecl}
    (h : s.structOf? l t = some d) : d ∈ s.program.structs := by
  unfold structOf? at h
  split at h
  · exact List.mem_of_find?_eq_some h
  · cases h

/-- Every structure has a higher rank than the ones it holds. -/
def ordered (s : Shader) (l : Layouts) (rank : String → Nat) : Bool :=
  s.program.structs.all fun d => d.members.all fun m =>
    (s.structOf? l m.type).all fun d' => rank d'.name < rank d.name

/-- Structures that can be ordered do not hold themselves. -/
theorem not_recursive_of_ordered {s : Shader} {l : Layouts} {rank : String → Nat}
    (h : s.ordered l rank = true) (t : TypeExpr) : ¬s.Recursive l t := by
  have lower : ∀ d d', d ∈ s.program.structs → s.Holds l d d' → rank d'.name < rank d.name := by
    rintro d d' hd ⟨m, hm, held⟩
    have checked := List.all_eq_true.1 (List.all_eq_true.1 h d hd) m hm
    rw [held] at checked
    exact of_decide_eq_true checked
  have chain : ∀ d d', d ∈ s.program.structs → Relation.TransGen (s.Holds l) d d' →
      d' ∈ s.program.structs ∧ rank d'.name < rank d.name := by
    intro d d' hd hchain
    have declared : ∀ {d d'}, s.Holds l d d' → d' ∈ s.program.structs := by
      rintro d d' ⟨m, -, held⟩
      exact mem_of_structOf? held
    induction hchain with
    | single hstep => exact ⟨declared hstep, lower _ _ hd hstep⟩
    | tail _ hstep ih => exact ⟨declared hstep, Nat.lt_trans (lower _ _ ih.1 hstep) ih.2⟩
  rintro ⟨d, d', hd, hreach, hself⟩
  have hd' : d' ∈ s.program.structs := by
    obtain rfl | hreach := Relation.reflTransGen_iff_eq_or_transGen.1 hreach
    · exact mem_of_structOf? hd
    · exact (chain d d' (mem_of_structOf? hd) hreach).1
  exact Nat.lt_irrefl _ (chain d' d' hd' hself).2

/-- The structures of a set hold others of the set only, of lower rank. -/
structure Nests (s : Shader) (l : Layouts) (within : StructDecl → Prop) (rank : StructDecl → Nat) :
    Prop where
  holds : ∀ d d', within d → s.Holds l d d' → within d' ∧ rank d' < rank d
  pos : ∀ d, within d → 0 < rank d
  bound : ∀ d, rank d ≤ s.program.structs.length

/-- The structures within an argument have ranks, unless one of them holds itself. -/
theorem nests_of_not_recursive {s : Shader} {l : Layouts} {t : TypeExpr} (h : ¬s.Recursive l t) :
    ∃ within rank, s.Nests l within rank ∧ ∀ d, s.structOf? l t = some d → within d := by
  classical
  let reached (d : StructDecl) : Prop :=
    ∃ first, s.structOf? l t = some first ∧ Relation.ReflTransGen (s.Holds l) first d
  have declared : ∀ d, reached d → d ∈ s.program.structs.toFinset := by
    rintro d ⟨first, hfirst, hd⟩
    rw [List.mem_toFinset]
    cases hd with
    | refl => exact mem_of_structOf? hfirst
    | tail _ hlast =>
      obtain ⟨m, -, hm⟩ := hlast
      exact mem_of_structOf? hm
  have acyclic : ∀ d, ¬Relation.TransGen (fun d d' => reached d ∧ s.Holds l d d') d d := by
    intro d hself
    obtain ⟨-, ⟨⟨first, hfirst, hd⟩, -⟩, -⟩ := Relation.TransGen.head'_iff.1 hself
    exact h ⟨first, d, hfirst, hd, hself.lift id fun _ _ hstep => hstep.2⟩
  obtain ⟨rank, lowers, bound, pos⟩ := exists_rank s.program.structs.toFinset
    (fun d _ hstep => declared d hstep.1) acyclic
  refine ⟨reached, rank, ⟨fun d d' hd hstep => ⟨?_, lowers d d' ⟨hd, hstep⟩⟩,
    fun d hd => pos d (declared d hd), fun d => (bound d).trans (List.toFinset_card_le _)⟩,
    fun d hd => ⟨d, hd, .refl⟩⟩
  obtain ⟨first, hfirst, hreach⟩ := hd
  exact ⟨first, hfirst, hreach.tail hstep⟩

end Shader

/-! ## Between calls -/

/-- Nothing is running, layouts answer as the settled ones do, and the variables of the module are
those of the program. -/
structure Machine.Vacant (settled : Layouts) (nodes : List Node) (m : Machine) : Prop where
  coherent : settled.Coherent nodes m.layouts
  typed : m.Typed fun t => t.nodes ⊆ nodes
  callDepth : m.callDepth = 0

variable {α β : Type} {l : Layouts} {p : Program}

theorem Machine.Vacant.stands {m : Machine} (h : m.Vacant l p.nodes) : m.Stands l 0 :=
  ⟨h.coherent.structs, h.coherent.aliases, h.callDepth, Nat.zero_le _⟩

/-- What does the same wherever a machine stands, and cannot see what layouts remember, leaves a
machine that is vacant. -/
theorem Exec.Mirrors.vacant {good : α → Prop} {x x' : Exec α}
    (h : Mirrors (Machine.Stands l 0) good x x') (ho : x.Oblivious l p.nodes) :
    Mirrors (Machine.Vacant l p.nodes) good x x' := by
  intro m hm
  obtain ⟨same, leaves⟩ := h m hm.stands
  refine ⟨same, fun a m₁ hrun => ?_⟩
  obtain ⟨hm₁, ha⟩ := leaves a m₁ hrun
  have ended := ho m m ⟨rfl, hm.coherent, hm.coherent, hm.typed⟩
  rw [hrun] at ended
  obtain ⟨e, he, -⟩ | ⟨_, _, _, hend, -, twins⟩ := ended
  · cases he
  · cases hend
    exact ⟨⟨twins.coherent, twins.typed, hm₁.callDepth⟩, ha⟩

theorem Machine.bindResource_callDepth (r : Resource) (m : Machine) (g : BindGroups) :
    (m.bindResource r g).1.callDepth = m.callDepth := by
  unfold bindResource
  dsimp only
  cases r.kind <;> rcases g.find? ⟨r.group, r.binding⟩ with _ | ⟨_ | _ | _ | _⟩ <;> rfl

theorem Machine.Vacant.bindResources {settled : Layouts} {nodes : List Node} {m : Machine}
    (h : m.Vacant settled nodes) (resources : List Resource) (g : BindGroups) :
    (m.bindResources resources g).1.Vacant settled nodes := by
  induction resources generalizing m g with
  | nil => exact h
  | cons r rest ih =>
    obtain ⟨vars, laid⟩ := m.bindResource_layouts r g
    have same : (m.bindResource r g).1.layouts = m.layouts :=
      congrArg (·.1.layouts) (laid m.layouts)
    refine ih ⟨same ▸ h.coherent, ?_, (m.bindResource_callDepth r g).trans h.callDepth⟩ _
    unfold Typed
    rw [vars]
    exact h.typed

/-! ## Starts -/

namespace Unbounded

open Eval

variable {s : Shader} {stop : Fault} {n : Nat} {config : Config} {scope : ScopeId}

theorem alike_start (hn : Enough l n) : Exec.Alike (Machine.Stands l 0) (Exec.start s config)
    (start s stop n config) := fun m hm =>
  have afresh : m.reset.Stands l 0 := ⟨hm.structs, hm.aliases, rfl, Nat.zero_le _⟩
  ((sameRuns hn stop).start (answers_call hn stop) afresh config).imp_right
    fun leaves _ m₁ hrun => ⟨leaves m₁ hrun, trivial⟩

/-! ## Arguments -/

/-- Which structure a type stands for does not depend on what layouts remember. -/
theorem structOf?_of_typeInfo (hs : l.Settled) (hapart : LayoutM.TypesApart p.nodes)
    {t : TypeExpr} (ht : t.nodes ⊆ p.nodes) {m m₁ : Machine} {info : TypeInfo} (hm : m.Vacant l p.nodes)
    (hrun : (Eval.typeInfo t).run m = .ok (.ok info, m₁)) :
    s.structOf? l t = s.program.structs.find? fun d => d.name = info.name := by
  have laid : ∃ l', (LayoutM.typeInfo t).run m.layouts = .ok (info, l') := by
    change (Exec.typeInfo t >>= fun info => pure (Except.ok info)) m = _ at hrun
    obtain ⟨info', m₂, hinfo, hend⟩ := Exec.bind_ok hrun
    cases hend
    obtain ⟨l', hl', -⟩ := Exec.layout_ok hinfo
    exact ⟨l', hl'⟩
  obtain ⟨l', hl'⟩ := laid
  obtain ⟨e, -, he⟩ | ⟨a, l₁, l₂, ha, ha', -, -⟩ := LayoutM.agrees_typeInfo hs hapart
    (fun _ hx => ht hx) l m.layouts (LayoutM.coherent_self l p.nodes) hm.coherent
  · rw [hl'] at he
    cases he
  · rw [hl'] at ha'
    cases ha'
    unfold Shader.structOf?
    rw [ha]

section

variable {hs : l.Settled} {hapart : LayoutM.TypesApart p.nodes}
  (shader : (Conduct.oblivious hs hapart).AdmitsShader s)

include shader

/-- An argument is built from structures of lower and lower rank. By induction on how many may be
within each other. -/
theorem alike_argument (hn : Enough l n) {within : StructDecl → Prop} {rank : StructDecl → Nat}
    (hrank : s.Nests l within rank) (depth : Nat) :
    ∀ (depth' : Nat) (attributes : List Attribute) (t : TypeExpr), t.nodes ⊆ p.nodes →
      0 < depth → 0 < depth' →
      (∀ d, s.structOf? l t = some d → within d ∧ rank d < depth ∧ rank d < depth') →
      Alike (Machine.Vacant l p.nodes) (Eval.argument s scope depth attributes t)
        ((hooks stop n).argument s scope depth' attributes t) := by
  induction depth with
  | zero => exact fun _ _ _ _ h => absurd h (Nat.lt_irrefl _)
  | succ depth ih =>
    intro depth' attributes t ht _ h' hstruct
    obtain ⟨depth', rfl⟩ := Nat.exists_eq_succ_of_ne_zero (Nat.ne_of_gt h')
    have unseen : (Conduct.oblivious hs hapart).quiet (Eval.typeInfo t).run :=
      Conduct.eval_typeInfo ht
    have laid : Alike (Machine.Vacant l p.nodes) (Eval.typeInfo t) ((hooks stop n).typeInfo t) :=
      Exec.Mirrors.vacant ((sameRuns hn stop).typeInfo 0 t) unseen
    rw [Eval.argument, Hooks.argument]
    refine laid.bind_of fun m info m₁ hm hrun _ => ?_
    cases (Attribute.find? attributes "builtin").bind Attribute.firstArgText? with
    | some name =>
      have unseen : (Conduct.oblivious hs hapart).quiet (builtinValue scope name).run :=
        Conduct.eval_builtinValue name
      have read : Alike (Machine.Vacant l p.nodes) (builtinValue scope name)
          (builtinValue scope name) :=
        Exec.Mirrors.vacant (Eval.alike_plain (Conduct.eval_builtinValue name)) unseen
      exact read.bind fun v _ => mirrors_lift (Run.ensures_all _)
    | none =>
      rw [structOf?_of_typeInfo hs hapart ht hm hrun] at hstruct
      cases hd : s.program.structs.find? fun d => d.name = info.name with
      | none => exact mirrors_pure trivial
      | some d =>
        obtain ⟨hwithin, hlow, hlow'⟩ := hstruct d hd
        have pos := hrank.pos d hwithin
        have member : ∀ field ∈ d.members, Alike (Machine.Vacant l p.nodes)
            (do return (field.name, ← Eval.argument s scope depth field.attributes field.type) :
              Eval (String × Value))
            (do return (field.name,
              ← (hooks stop n).argument s scope depth' field.attributes field.type)) := by
          intro field hfield
          have typed := shader.members d (List.mem_of_find?_eq_some hd) field hfield
          refine Eval.Mirrors.bind (ih depth' _ field.type typed (by omega) (by omega)
            fun d' hd' => ?_) fun v _ => mirrors_pure trivial
          obtain ⟨hwithin', lower⟩ := hrank.holds d d' hwithin ⟨field, hfield, hd'⟩
          exact ⟨hwithin', by omega, by omega⟩
        exact (mirrors_mapM member).bind fun fields _ => mirrors_pure trivial

/-! ## Dispatches -/

variable {entry : String} (hn : Enough l n) (hstructs : s.program.structs.length < n)

include hn hstructs

theorem alike_bindArgument {f : Function} (hentry : s.function? entry = some f) {arg : Field}
    (harg : arg ∈ f.args) (hflat : ¬s.Recursive l arg.type) :
    Exec.Alike (Machine.Vacant l p.nodes) (Exec.bindArgument s f scope arg)
      ((hooks stop n).bindArgument s f scope arg) := by
  obtain ⟨within, rank, hrank, hfirst⟩ := Shader.nests_of_not_recursive hflat
  have admitted := shader.functions entry f hentry
  have typed : arg.type.nodes ⊆ p.nodes := by
    simp only [Function.mentions, Conduct.admits_append] at admitted
    exact admitted.1.1 (.type arg.type) (List.mem_map_of_mem harg)
  have bound : ∀ v : Value, Exec.Alike (Machine.Vacant l p.nodes)
      (Exec.bind scope arg.name (.value v)) (Exec.bind scope arg.name (.value v)) := fun v =>
    Exec.mirrors_modify fun m hm => ⟨hm.coherent, hm.typed, hm.callDepth⟩
  have built : Alike (Machine.Vacant l p.nodes)
      (Eval.argument s scope (s.program.structs.length + 1) arg.attributes arg.type)
      ((hooks stop n).argument s scope n arg.attributes arg.type) := by
    refine alike_argument shader hn hrank _ _ _ _ typed (Nat.succ_pos _) (by omega) fun d hd => ?_
    have low := hrank.bound d
    exact ⟨hfirst d hd, by omega, by omega⟩
  refine Exec.Mirrors.bind built fun outcome _ => ?_
  cases outcome with
  | ok v => exact bound v
  | error e =>
    have reported : Exec.Alike (Machine.Vacant l p.nodes) (Exec.report (e.at_ f.startLine))
        (Exec.report (e.at_ f.startLine)) :=
      Exec.mirrors_modify fun m hm => ⟨hm.coherent, hm.typed, hm.callDepth⟩
    exact reported.bind fun _ _ => bound _

/-- The stages of a dispatch do the same, if no argument of the entry point holds itself. -/
theorem stages (stop : Fault)
    (hargs : ∀ f, s.function? entry = some f → ∀ arg ∈ f.args, ¬s.Recursive l arg.type) :
    (hooks stop n).Stages s entry (Machine.Vacant l p.nodes) where
  start config := (alike_start hn).vacant <| Exec.oblivious_bind
    (Exec.oblivious_modifyGet (fun _ _ => rfl) fun _ _ v hv => absurd hv List.not_mem_nil)
    fun _ => Conduct.inside_declarations shader config
  size f hf := Exec.Mirrors.vacant ((sameRuns hn stop).mirrors_workgroupSize (answers_call hn stop) f)
    (Conduct.eval_workgroupSize shader hf)
  resources _ g hm := hm.bindResources _ g
  moduleVars newWorkgroup := Exec.Mirrors.vacant
    ((sameRuns hn stop).mirrors_resetVariables (answers_call hn stop) newWorkgroup)
    (Conduct.inside_resetVariables shader _)
  unmarked _ hm := ⟨hm.coherent, hm.typed, hm.callDepth⟩
  opened _ hm := ⟨hm.coherent, hm.typed, hm.callDepth⟩
  builtins _ _ _ _ _ _ hm := ⟨hm.coherent, hm.typed, hm.callDepth⟩
  argument f hf arg harg _ := alike_bindArgument shader hn hstructs hf harg (hargs f hf arg harg)
  body f hf scope := by
    have body : (Conduct.oblivious hs hapart).Admits (Stmt.listMentions f.body) := by
      have admitted := shader.functions entry f hf
      simp only [Function.mentions, Conduct.admits_append] at admitted
      exact Conduct.admits_of_block admitted.2
    have run : (Invariant.standing l).Execs 0 (Flow.Carries fun _ => True)
        (Eval.stmts s (Eval.call s) scope f.body)
        ((hooks stop n).begun ((hooks stop n).stmts s ((hooks stop n).call s) scope f.body)) :=
      (sameRuns hn stop).begun
        ((sameRuns hn stop).mirrors_stmts (answers_call hn stop) f.body scope)
    exact Exec.Mirrors.vacant (run.mono fun _ _ => trivial)
      (Conduct.inside_stmts (Conduct.answers_call shader) f.body scope body)
  closed _ _ hm := ⟨hm.coherent, hm.typed, hm.callDepth⟩
  unbound _ hm := ⟨hm.coherent, hm.typed, hm.callDepth⟩

end

variable {entry : String} {workgroups : Extent} {g : BindGroups}

/-- A dispatch is refused if there were errors in laying out the program. -/
theorem alike_refused {P : Machine → Prop} {message : String} {errors : List String}
    (h : s.reflection.layoutErrors = message :: errors) :
    Alike P (Attempt.dispatch s entry workgroups g config)
      (dispatch s stop n entry workgroups g config) := by
  have refused : Alike P (Attempt.prepare s entry workgroups g config)
      ((hooks stop n).prepare s entry workgroups g config) := by
    unfold Attempt.prepare Hooks.prepare
    rw [h]
    exact mirrors_throw _
  refine refused.bind_of fun m planned m₁ _ hrun _ => ?_
  unfold Attempt.prepare at hrun
  rw [h] at hrun
  cases hrun

/-- A dispatch begins with forgetting. -/
theorem run_dispatch_reset (h : s.reflection.layoutErrors = []) (m : Machine) :
    (dispatch s stop n entry workgroups g config).run m =
      (dispatch s stop n entry workgroups g config).run m.reset := by
  have afresh : ∀ (x : Exec Unit) (f : Unit → Attempt BindGroups),
      (Attempt.ofExec (modify Machine.reset >>= fun _ => x) >>= f).run m =
        (Attempt.ofExec (modify Machine.reset >>= fun _ => x) >>= f).run m.reset := fun _ _ => rfl
  unfold dispatch Hooks.dispatch Hooks.prepare
  rw [h, List.head?_nil]
  dsimp only
  rw [bind_assoc]
  exact afresh _ _

end Unbounded

theorem Attempt.run_dispatch_reset {s : Shader} {config : Config} {entry : String}
    {workgroups : Extent} {g : BindGroups} (h : s.reflection.layoutErrors = []) (m : Machine) :
    (dispatch s entry workgroups g config).run m =
      (dispatch s entry workgroups g config).run m.reset := by
  rw [run_dispatch, run_dispatch, run_started h, run_started h]
  rfl

/-! ## Any calls -/

/-- How far anything in a run of a program is followed at most. -/
def Program.reach (p : Program) : Nat :=
  maxLoopIterations + LayoutM.depthOf (Layouts.ofProgram p) + p.structs.length

namespace Unbounded

variable {s : Shader} {stop : Fault} {n : Nat}

theorem Enough.extends {l l' : Layouts} (h : Enough l n) (hl : l.Extends l') : Enough l' n where
  acyclic := by
    have same : ∀ name other, l'.AliasRefers name other → l.AliasRefers name other := by
      intro name other href
      unfold Layouts.AliasRefers at href
      rwa [hl.structs, hl.aliases] at href
    exact fun name hself => h.acyclic name (hself.lift id same)
  declarations := by
    unfold LayoutM.depthOf
    rw [hl.structs, hl.aliases]
    exact h.declarations
  iterations := h.iterations

theorem enough_of_reach (h : (Layouts.ofProgram p).AliasesAcyclic) (hn : p.reach < n) :
    Enough (Layouts.ofProgram p) n := by
  unfold Program.reach at hn
  exact ⟨h, by omega, by omega⟩

/-- Whatever was asked of a shader before, a start and a dispatch come to an end by what the language
limits: followed far enough, nothing stops that has no bound of its own, and no statement is inside
too many calls. A loop whose rounds go on is abandoned after one more than the limit, which is
reported. -/
theorem comes_to_an_end {source : String} (hsource : Program.ofSource source = .ok p)
    (hp : Shader.ofProgram p = .ok (s, l)) (haliases : (Layouts.ofProgram p).AliasesAcyclic)
    {calls : List Call} {m : Machine}
    (hcalls : calls.forM (Call.run s) { layouts := l } = .ok ((), m)) (hn : p.reach < n)
    (stop : Fault) :
    (∀ config, start s stop n config m = Exec.start s config m) ∧
    (∀ entry workgroups g config,
      (∀ f, s.function? entry = some f → ∀ arg ∈ f.args, ¬s.Recursive l arg.type) →
        (dispatch s stop n entry workgroups g config).run m =
          (Attempt.dispatch s entry workgroups g config).run m) ∧
    ∀ line round m m₁, Eval.GoesOn round (maxLoopIterations + 1) m m₁ → m₁.discarded = false →
      Eval.settled line (repeated stop n round) m = .ok (.normal,
        { m₁ with diagnostics := m₁.diagnostics.push (Eval.abandoned.at_ line) }) := by
  have enough : Enough l n := (enough_of_reach haliases hn).extends (Shader.extends_ofProgram hp)
  obtain ⟨hprogram, -⟩ := Shader.ofProgram_ok hp
  refine ⟨fun config => ?_, fun entry workgroups g config hargs => ?_,
    fun line round m m₁ h hkept => ?_⟩
  · have kept := Call.extends_forM calls hcalls
    have stands : m.reset.Stands l 0 := ⟨kept.structs, kept.aliases, rfl, Nat.zero_le _⟩
    exact ((sameRuns enough stop).start (answers_call enough stop) stands config).1
  · cases herrors : s.reflection.layoutErrors with
    | cons message errors => exact (alike_refused (P := fun _ => True) herrors m trivial).1
    | nil =>
      have settled := Shader.settled_ofProgram hp
      have shader := Conduct.oblivious_admitsShader settled (LayoutM.typesApart_ofSource hsource) hp
      have idle := Call.idle_forM shader herrors calls (Machine.Idle.fresh l p.nodes) hcalls
      have vacant : m.reset.Vacant l p.nodes :=
        ⟨idle.coherent, fun v hv => absurd hv List.not_mem_nil, rfl⟩
      have few : s.program.structs.length < n := by
        rw [hprogram]
        unfold Program.reach at hn
        omega
      rw [run_dispatch_reset herrors, Attempt.run_dispatch_reset herrors]
      exact ((stages shader enough few stop hargs).dispatch m.reset vacant).1
  · rw [repeated_eq enough]
    exact Eval.settled_goesOn line h hkept

/-- A function that calls itself, a loop without an exit, an alias and an argument with a structure
in it. -/
def endless : String :=
  "alias A = u32; struct B \x7b i: A \x7d struct C \x7b b: B \x7d fn g() \x7b g(); \x7d " ++
    "@workgroup_size fn f(c: C) \x7b g(); loop \x7b \x7d \x7d"

/-- Types by how many declarations they stand on. -/
def endlessRank (name : String) : Nat :=
  if name = "C" then 3 else if name = "B" then 2 else if name = "A" then 1 else 0

/-- Whether aliases and structures can be ordered. -/
def ordersTypes (source : String) (rank : String → Nat) : Except Fault Bool := do
  let p ← Program.ofSource source
  let (s, l) ← Shader.ofProgram p
  return (Layouts.ofProgram p).ordered rank && s.ordered l rank

theorem of_ordersTypes {source : String} {rank : String → Nat}
    (h : ordersTypes source rank = .ok true) : ∃ p s l, Program.ofSource source = .ok p ∧
      Shader.ofProgram p = .ok (s, l) ∧ (Layouts.ofProgram p).ordered rank = true ∧
      s.ordered l rank = true := by
  obtain ⟨p, hsource, h⟩ := Fault.bind_ok h
  obtain ⟨⟨s, l⟩, hp, h⟩ := Fault.bind_ok h
  have both := Except.ok.inj h
  rw [Bool.and_eq_true] at both
  exact ⟨p, s, l, hsource, hp, both.1, both.2⟩

set_option maxRecDepth 10000 in
theorem comes_to_an_end_endless : ∃ p s l,
    Program.ofSource endless = .ok p ∧ Shader.ofProgram p = .ok (s, l) ∧
      ∀ stop g, (dispatch s stop (p.reach + 1) "f" ⟨1, 1, 1⟩ g []).run { layouts := l } =
        (Attempt.dispatch s "f" ⟨1, 1, 1⟩ g []).run { layouts := l } := by
  have orders : ordersTypes endless endlessRank = .ok true :=
    Fault.ok_of_toOption (by decide +kernel)
  obtain ⟨p, s, l, hsource, hp, haliases, hstructs⟩ := of_ordersTypes orders
  have acyclic := (Layouts.acyclic_of_ordered haliases).aliasesAcyclic
  refine ⟨p, s, l, hsource, hp, fun stop g => ?_⟩
  have uncalled : ([] : List Call).forM (Call.run s) { layouts := l } =
      .ok ((), { layouts := l }) := rfl
  have ended := comes_to_an_end hsource hp acyclic uncalled (Nat.lt_succ_self p.reach) stop
  exact ended.2.1 "f" _ g [] fun _ _ arg _ => Shader.not_recursive_of_ordered hstructs arg.type

end Unbounded

end Wgsl
