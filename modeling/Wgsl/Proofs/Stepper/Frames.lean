import Wgsl.Proofs.Layout.Laying
import Wgsl.Proofs.Machine.Stack
import Wgsl.Proofs.Stepper.Steps

/-! # Frames and scopes

Every frame of a session has a scope of its own. While a dispatch is stepped through, frames and
scopes are opened and closed together: the frame at a height runs in the scope of that number, so
closing a frame never closes the scope of a frame below it.

* `Tower`: frames that stand on each other, each in its scope.
* `Session.Framed`: the invariant of a session, kept by everything that a step does.
* `Session.Reachable.wellFramed`: what holds of frames and scopes in every session.
-/

namespace Wgsl
set_option autoImplicit false

open Machine (KeepsStack)

/-! ## Towers -/

/-- The parent that the scope of a frame has: a function hangs off the root, other frames off the
frame below. -/
def Frame.base (f : Frame) (below : List Frame) : ScopeId :=
  if f.kind = .function then ScopeArena.root else below.length

/-- Each frame runs in the scope of its height. The outermost frame is that of a function. -/
def Standing (a : ScopeArena Slot) : List Frame → Prop
  | [] => True
  | f :: below => f.scope = below.length + 1 ∧ a.parent? f.scope = some (f.base below) ∧
      (below = [] → f.kind = .function) ∧ Standing a below

/-- Frames with their scopes, and no scope besides but the root. -/
structure Tower (a : ScopeArena Slot) (frames : List Frame) : Prop where
  depth : a.depth = frames.length + 1
  standing : Standing a frames

section

variable {a b : ScopeArena Slot} {f g : Frame} {frames below : List Frame} {parent : ScopeId}

theorem Standing.congr (h : Standing a frames)
    (hp : ∀ id ≤ frames.length, b.parent? id = a.parent? id) : Standing b frames := by
  induction frames with
  | nil => trivial
  | cons f below ih =>
    obtain ⟨hscope, hparent, hbottom, hbelow⟩ := h
    refine ⟨hscope, ?_, hbottom, ih hbelow fun id hid => hp id (Nat.le_succ_of_le hid)⟩
    rw [hp f.scope (Nat.le_of_eq hscope), hparent]

theorem Tower.congr (h : Tower a frames) (hd : b.depth = a.depth)
    (hp : ∀ id, b.parent? id = a.parent? id) : Tower b frames :=
  ⟨hd.trans h.depth, h.standing.congr fun id _ => hp id⟩

/-- What a frame runs and where it stands in it does not matter. -/
theorem Tower.retop (h : Tower a (f :: below)) (hk : g.kind = f.kind) (hs : g.scope = f.scope) :
    Tower a (g :: below) := by
  obtain ⟨hdepth, hscope, hparent, hbottom, hbelow⟩ := h
  refine ⟨hdepth, hs.trans hscope, ?_, fun e => hk.trans (hbottom e), hbelow⟩
  rw [hs, hparent, Frame.base, Frame.base, hk]

theorem Tower.push (h : Tower a frames) (hs : f.scope = a.depth) (hp : parent = f.base frames)
    (hbottom : frames = [] → f.kind = .function) : Tower (a.push parent).1 (f :: frames) := by
  have height : f.scope = frames.length + 1 := hs.trans h.depth
  refine ⟨?_, height, ?_, hbottom, h.standing.congr fun id hid => ?_⟩
  · rw [ScopeArena.depth_push, h.depth]
    rfl
  · rw [hs, hp]
    exact ScopeArena.parent?_push_depth
  · refine ScopeArena.parent?_push_of_ne (Nat.ne_of_lt ?_)
    rw [h.depth]
    exact Nat.lt_succ_of_le hid

/-- Closing the innermost frame closes its scope and no other. -/
theorem Tower.pop (h : Tower a (f :: below)) : Tower (a.pop f.scope) below := by
  obtain ⟨hdepth, hscope, -, -, hbelow⟩ := h
  have hlive : f.scope < a.depth := by
    rw [hdepth, hscope]
    exact Nat.lt_succ_self _
  refine ⟨?_, hbelow.congr fun id hid => ?_⟩
  · rw [ScopeArena.depth_pop (hscope ▸ Nat.succ_pos _) hlive, hscope]
  · exact ScopeArena.parent?_pop (hscope ▸ Nat.lt_succ_of_le hid)

/-- In a tower without frames there is only the root, which stays. -/
theorem pop_of_depth_one (h : a.depth = 1) (id : ScopeId) : a.pop id = a := by
  refine if_neg fun hid => ?_
  have hlt : id < 1 := h ▸ hid.2
  exact Nat.lt_irrefl _ (Nat.lt_of_lt_of_le hid.1 (Nat.le_of_lt_succ hlt))

theorem Tower.popAll (h : Tower a frames) :
    (frames.foldl (fun a f => a.pop f.scope) a).depth = 1 := by
  induction frames generalizing a with
  | nil => exact h.depth
  | cons f below ih => exact ih h.pop

/-- Unwinding ends at the frame of a function, which still stands. -/
theorem Tower.unwind (h : Tower a frames) (hne : frames ≠ []) : ∃ scopes f callers,
    Session.unwind a frames = (scopes, some (f, callers)) ∧ Tower scopes (f :: callers) := by
  induction frames generalizing a with
  | nil => exact absurd rfl hne
  | cons f below ih =>
    rw [Session.unwind]
    by_cases hk : f.kind = .function
    · exact ⟨a, f, below, if_pos hk, h⟩
    · rw [if_neg hk]
      exact ih h.pop fun e => hk (h.standing.2.2.1 e)

theorem Tower.leave (h : Tower a frames) :
    Tower (Session.leave a frames).1 (Session.leave a frames).2.1 := by
  induction frames generalizing a with
  | nil => exact h
  | cons f below ih =>
    rw [Session.leave]
    cases f.kind with
    | function => exact h
    | block => exact ih h.pop
    | loop target => exact h.pop
    | switch => exact h.pop

theorem Tower.restart (h : Tower a frames) :
    Tower (Session.restart a frames).1 (Session.restart a frames).2.1 := by
  induction frames generalizing a with
  | nil => exact h
  | cons f below ih =>
    rw [Session.restart]
    cases hk : f.kind with
    | function => exact h
    | block => exact ih h.pop
    | switch => exact ih h.pop
    | loop target => exact h.retop hk.symm rfl

end

/-! ## What commands do to scopes -/

namespace Machine

variable {m m₁ m₂ : Machine} {parent scope : ScopeId} {scope? : Option ScopeId}

/-- One more scope is open than before, and names are bound only in it and in the root. -/
structure Opens (parent scope : ScopeId) (m m₁ : Machine) : Prop where
  fresh : scope = m.scopes.depth
  depth : m₁.scopes.depth = (m.scopes.push parent).1.depth
  parents : ∀ id, m₁.scopes.parent? id = (m.scopes.push parent).1.parent? id
  names : ∀ id name, id ≠ ScopeArena.root → id < m.scopes.depth →
    (m₁.scopes.Binds id name ↔ m.scopes.Binds id name)

theorem opens_pushed (parent : ScopeId) (m : Machine) :
    m.Opens parent m.scopes.depth (m.pushed parent) :=
  ⟨rfl, rfl, fun _ => rfl, fun _ _ _ _ => ScopeArena.binds_push⟩

theorem opened_pushed (parent : ScopeId) (m : Machine) : 0 < (m.pushed parent).scopes.depth := by
  rw [Machine.pushed, ScopeArena.depth_push]
  exact Nat.succ_pos _

theorem Opens.trans (h : m.Opens parent scope m₁) (h' : KeepsStack scope? m₁ m₂)
    (hnew : ∀ id ∈ scope?, m.scopes.depth ≤ id) : m.Opens parent scope m₂ where
  fresh := h.fresh
  depth := h'.depth.trans h.depth
  parents id := (h'.parents id).trans (h.parents id)
  names id name hroot hid := by
    refine (h'.names id name fun e => ?_).trans (h.names id name hroot hid)
    exact Nat.not_lt.2 (hnew id e.symm) hid

theorem parent?_push_congr {a b : ScopeArena Slot} (hd : b.depth = a.depth)
    (hp : ∀ id, b.parent? id = a.parent? id) (id : ScopeId) :
    (b.push parent).1.parent? id = (a.push parent).1.parent? id := by
  by_cases hid : id = a.depth
  · rw [hid, ScopeArena.parent?_push_depth, ← hd, ScopeArena.parent?_push_depth]
  · rw [ScopeArena.parent?_push_of_ne hid, ScopeArena.parent?_push_of_ne (hd ▸ hid), hp]

theorem KeepsStack.opens (h : KeepsStack scope? m m₁) (h' : m₁.Opens parent scope m₂)
    (hroot : ∀ id ∈ scope?, id = ScopeArena.root) : m.Opens parent scope m₂ where
  fresh := h'.fresh.trans h.depth
  depth := by rw [h'.depth, ScopeArena.depth_push, ScopeArena.depth_push, h.depth]
  parents id := (h'.parents id).trans (parent?_push_congr h.depth h.parents id)
  names id name hne hid :=
    (h'.names id name hne (h.depth ▸ hid)).trans (h.names id name fun e => hne (hroot id e.symm))

end Machine

/-- The name that a command declares in the scope of its frame. -/
def Command.declares? : Command → Option String
  | .simple st => st.action.declares?
  | _ => none

/-- The scope in which a command may bind a name. -/
def Command.owner? (scope : ScopeId) : Command → Option ScopeId
  | .declaration _ => some ScopeArena.root
  | c => c.declares?.map fun _ => scope

namespace Exec

variable {s : Shader} {scope : ScopeId} {m m₁ : Machine}

theorem keepsStack_forM {β : Type} {F : β → Exec PUnit} {l : List β} {scope? : Option ScopeId}
    (h : ∀ b ∈ l, (F b).KeepsStack scope?) : (l.forM F).KeepsStack scope? :=
  Conduct.obeys_forM (C := .stack) h

theorem keepsStack_condition (e : Expr) :
    (Eval.reportedCondition s scope e).KeepsStack none := by
  have condition : Conduct.stack.quiet (Eval.condition s (Eval.call s) scope e).run :=
    Conduct.eval_condition (Conduct.stack_answers s) (Conduct.stack_admits _)
  have quiet : Conduct.stack.quiet (Eval.reportedCondition s scope e) := by
    refine Conduct.stack.obeys_bind condition fun outcome => ?_
    cases outcome with
    | ok b => exact Conduct.stack.obeys_pure _
    | error error =>
      refine Conduct.stack.obeys_get (fun _ _ => rfl) fun m _ => ?_
      split
      · exact Conduct.stack.obeys_pure _
      · exact Conduct.stack.obeys_bind (Conduct.obeys_report _) fun _ => Conduct.stack.obeys_pure _
  exact quiet

theorem keepsStack_selectedCommands? (v : Value) (clauses : List ClauseCommands) :
    (Eval.selectedCommands? s scope v clauses).run.KeepsStack none := by
  induction clauses with
  | nil => exact Conduct.eval_pure (C := .stack) _
  | cons c rest ih =>
    have selected : Conduct.stack.quiet (Eval.isSelected s (Eval.call s) scope v c.selectors).run :=
      Conduct.eval_isSelected (Conduct.stack_answers s) v (Conduct.stack_admits _)
    refine Conduct.eval_bind (C := .stack) selected fun holds => ?_
    cases holds with
    | true => exact Conduct.eval_pure _
    | false => exact ih

/-- A command opens no scope, and it binds a name only in the scope where it declares one. -/
theorem keepsStack_command (config : Config) (c : Command) :
    (Eval.command s config scope c).run.KeepsStack (c.owner? scope) := by
  have shader := Conduct.stack_admitsShader s
  have answers := Conduct.stack_answers s
  have admits := Conduct.stack_admits
  have value : ∀ e, Conduct.stack.quiet (Eval.expr s (Eval.call s) scope e).run := fun e =>
    Conduct.eval_expr answers e (admits _)
  have after : ∀ st, st.declares? = none →
      Conduct.stack.quiet (Eval.stmt s (Eval.call s) scope st) := fun st hd =>
    Conduct.obeys_stmt answers st none scope (admits _) (Or.inl hd)
  have here : ∀ {x : Eval Move}, Conduct.stack.quiet x.run → x.run.KeepsStack none := fun h => h
  cases c with
  | simple st =>
    have run : Conduct.stack.obeys (st.action.declares?.map fun _ => scope)
        (Eval.simple s (Eval.call s) scope st) := by
      refine Conduct.obeys_simple answers (admits _) ?_
      cases st.action.declares? with
      | none => exact Or.inl rfl
      | some name => exact Or.inr rfl
    exact Conduct.eval_bind (C := .stack) (Conduct.eval_ofExec run) fun flow => Conduct.eval_pure _
  | constAssert line e =>
    exact here (Conduct.eval_bind (Conduct.eval_ofExec (after _ rfl)) fun flow => Conduct.eval_pure _)
  | discard line =>
    exact here (Conduct.eval_bind (Conduct.eval_ofExec (after _ rfl)) fun flow => Conduct.eval_pure _)
  | branch line e target =>
    refine here (Conduct.eval_bind (Conduct.eval_ofExec (keepsStack_condition e)) fun holds => ?_)
    cases holds <;> exact Conduct.eval_pure _
  | breakIf line e negated =>
    exact here (Conduct.eval_bind (Conduct.eval_ofExec (keepsStack_condition e))
      fun holds => Conduct.eval_pure _)
  | break_ line => exact here (Conduct.eval_pure _)
  | continue_ line => exact here (Conduct.eval_pure _)
  | return_ line value? =>
    cases value? with
    | none => exact here (Conduct.eval_pure _)
    | some e => exact here (Conduct.eval_bind (value e) fun v => Conduct.eval_pure _)
  | switch line selector clauses =>
    refine here (Conduct.eval_bind (value selector) fun v => ?_)
    refine Conduct.eval_bind (C := .stack) (keepsStack_selectedCommands? v clauses)
      fun commands? => ?_
    split
    · exact Conduct.eval_pure _
    · split <;> exact Conduct.eval_pure _
  | declaration d =>
    have run : Conduct.stack.inside ScopeArena.root (Exec.declaration s config d) :=
      Conduct.inside_declaration shader (admits _)
    exact Conduct.eval_bind (C := .stack) (Conduct.eval_ofExec run) fun _ => Conduct.eval_pure _
  | block _ => exact here (Conduct.eval_pure _)
  | jump _ => exact here (Conduct.eval_pure _)
  | loop _ _ => exact here (Conduct.eval_pure _)

theorem keepsStack_frameValue (f : Frame) (value : Option Value) :
    (Step.frameValue f value).KeepsStack none := by
  have quiet : Conduct.stack.quiet (Step.frameValue f value) := by
    unfold Step.frameValue
    split
    · refine Conduct.stack.obeys_bind (Conduct.eval_returnValue (Conduct.stack_admits _) _)
        fun outcome => ?_
      cases outcome with
      | ok v => exact Conduct.stack.obeys_pure _
      | error e =>
        exact Conduct.stack.obeys_bind (Conduct.obeys_report _) fun _ => Conduct.stack.obeys_pure _
    · exact Conduct.stack.obeys_pure _
  exact quiet

/-- A call that can begin opens a scope below the root. -/
theorem opens_bindCall {f : Function} {args : List Value} {outcome : Run ScopeId}
    (hopen : 0 < m.scopes.depth) (h : (Eval.bindCall f args).run m = .ok (outcome, m₁)) :
    match outcome with
    | .ok scope => m.Opens ScopeArena.root scope m₁
    | .error _ => Machine.KeepsStack none m m₁ := by
  unfold Eval.bindCall at h
  by_cases hl : args.length = f.args.length
  · rw [if_neg fun hne => hne hl] at h
    rw [ExceptT.run_bind] at h
    obtain ⟨values, m₂, h₂, h⟩ := bind_ok h
    have values_quiet : Conduct.stack.quiet ((f.args.zip args).mapM fun b => do
        return (b.1.name, ← b.2.coerceTo (← Eval.typeInfo b.1.type)) : Eval _).run := by
      refine Conduct.eval_mapM fun b _ => ?_
      exact Conduct.eval_bind (Conduct.eval_typeInfo trivial) fun t =>
        Conduct.eval_bind (Conduct.eval_lift _) fun u => Conduct.eval_pure _
    have first := values_quiet m values m₂ hopen h₂
    cases values with
    | error e =>
      cases h
      exact first
    | ok values =>
      change ((pushScope ScopeArena.root >>= _) >>= fun scope => pure (Except.ok scope)) m₂ = _ at h
      obtain ⟨scope, m₃, h₃, h⟩ := bind_ok h
      cases h
      obtain ⟨_, m₄, h₄, h₃⟩ := bind_ok h₃
      cases h₄
      obtain ⟨_, m₅, h₅, h₃⟩ := bind_ok h₃
      cases h₃
      have bound : Machine.KeepsStack (some m₂.scopes.depth) (m₂.pushed ScopeArena.root) m₁ :=
        keepsStack_forM (fun b _ => Conduct.stack.obeys_bindName _ _ _) _ _ _
          (Machine.opened_pushed ScopeArena.root m₂) h₅
      refine first.opens ((Machine.opens_pushed ScopeArena.root m₂).trans bound ?_)
        fun _ h => by cases h
      rintro id ⟨⟩
      exact Nat.le_refl _
  · rw [if_pos hl] at h
    cases h
    exact Machine.KeepsStack.refl none m

theorem opens_bindPending {f : Frame} {call : PendingCall} {outcome : Run ScopeId}
    (hopen : 0 < m.scopes.depth) (h : Step.bindPending s f call m = .ok (outcome, m₁)) :
    match outcome with
    | .ok scope => m.Opens ScopeArena.root scope m₁
    | .error _ => Machine.KeepsStack none m m₁ := by
  obtain ⟨_, m₂, h₂, h⟩ := bind_ok h
  obtain ⟨outcome', m₃, h₃, h⟩ := bind_ok h
  obtain ⟨_, m₄, h₄, h⟩ := bind_ok h
  cases h₂
  cases h₄
  cases h
  rw [ExceptT.run_bind] at h₃
  obtain ⟨args, m₂, h₂, h₃⟩ := bind_ok h₃
  have args_quiet : Conduct.stack.quiet (Eval.exprs s (Eval.call s) f.scope call.args).run :=
    Conduct.eval_exprs (Conduct.stack_answers s) _ (Conduct.stack_admits _)
  have given : Machine.KeepsStack none m { m with callResults := f.results } :=
    Machine.KeepsStack.of_eq none rfl rfl
  have first : Machine.KeepsStack none m m₂ := given.trans (args_quiet _ args m₂ hopen h₂)
  cases args with
  | error e =>
    cases h₃
    exact first.trans (Machine.KeepsStack.of_eq none rfl rfl)
  | ok args =>
    have bound := opens_bindCall (first.depth ▸ hopen) h₃
    cases outcome with
    | ok scope =>
      exact first.opens (bound.trans (Machine.KeepsStack.of_eq none rfl rfl) nofun) nofun
    | error e => exact first.trans (bound.trans (Machine.KeepsStack.of_eq none rfl rfl))

/-- An invocation runs in a scope below the root. -/
theorem opens_beginInvocation {plan : DispatchPlan} {index : Nat} (hopen : 0 < m.scopes.depth)
    (h : beginInvocation s plan index m = .ok (scope, m₁)) :
    m.Opens ScopeArena.root scope m₁ := by
  have shader := Conduct.stack_admitsShader s
  unfold beginInvocation at h
  generalize (plan.invocation index).builtins plan.workgroups = builtins at h
  obtain ⟨_, m₂, h₂, h⟩ := bind_ok h
  obtain ⟨_, m₃, h₃, h⟩ := bind_ok h
  obtain ⟨scope', m₄, h₄, h⟩ := bind_ok h
  obtain ⟨_, m₅, h₅, h⟩ := bind_ok h
  obtain ⟨_, m₆, h₆, hend⟩ := bind_ok h
  cases h₃
  cases h₄
  cases hend
  have reset := Conduct.inside_resetVariables shader _ m () m₂ hopen h₂
  let n : Machine := { m₂ with discarded := false }
  have started : Machine.KeepsStack (some ScopeArena.root) m n :=
    reset.trans (Machine.KeepsStack.of_eq _ rfl rfl)
  have opened := Machine.opened_pushed ScopeArena.root n
  have named : Machine.KeepsStack (some n.scopes.depth) (n.pushed ScopeArena.root) m₅ :=
    keepsStack_forM (fun b _ => Conduct.stack.obeys_bindName _ _ _) _ () _ opened h₅
  have arguments : Machine.KeepsStack (some n.scopes.depth) m₅ m₁ :=
    keepsStack_forM (fun arg ha => Conduct.inside_bindArgument shader (Conduct.stack_admits _) ha)
      _ () _ (named.depth ▸ opened) h₆
  refine started.opens ((Machine.opens_pushed ScopeArena.root n).trans (named.trans arguments) ?_) ?_
  · rintro id ⟨⟩
    exact Nat.le_refl _
  · rintro id ⟨⟩
    rfl

end Exec

namespace Machine

theorem keepsStack_bindResource (r : Resource) (m : Machine) (g : BindGroups) :
    KeepsStack (some ScopeArena.root) m (m.bindResource r g).1 := by
  have bound : ∀ {m₁ : Machine} (slot : Slot), m₁.scopes = m.scopes → m₁.callDepth = m.callDepth →
      KeepsStack (some ScopeArena.root) m (m₁.bind ScopeArena.root r.name slot) :=
    fun slot hs hd => (KeepsStack.of_eq _ hs hd).trans (keepsStack_bind _ _ _ _)
  unfold bindResource
  dsimp only
  split <;> first | exact bound _ rfl rfl | exact KeepsStack.refl _ m

theorem keepsStack_bindResources (resources : List Resource) (m : Machine) (g : BindGroups) :
    KeepsStack (some ScopeArena.root) m (m.bindResources resources g).1 := by
  induction resources generalizing m g with
  | nil => exact KeepsStack.refl _ m
  | cons r resources ih => exact (keepsStack_bindResource r m g).trans (ih _ _)

end Machine

/-- A dispatch that can be laid out is prepared with no scope open but the root. -/
theorem Attempt.depth_prepare {s : Shader} {entry : String} {workgroups : Extent} {g : BindGroups}
    {config : Config} {m m₁ : Machine} {outcome : Except Fault (DispatchPlan × BindGroups)}
    (h : (prepare s entry workgroups g config).run m = .ok (outcome, m₁)) :
    (s.reflection.layoutErrors ≠ [] ∧ m₁ = m ∧ ∃ e, outcome = .error e) ∨
      (s.reflection.layoutErrors = [] ∧ m₁.scopes.depth = 1 ∧
        m₁.scopes.parent? ScopeArena.root = none) := by
  have shader := Conduct.stack_admitsShader s
  unfold prepare at h
  cases hl : s.reflection.layoutErrors with
  | cons message rest =>
    rw [hl] at h
    cases h
    exact Or.inl ⟨List.cons_ne_nil _ _, rfl, _, rfl⟩
  | nil =>
    rw [hl] at h
    refine Or.inr ⟨rfl, ?_⟩
    have bound : Conduct.stack.inside ScopeArena.root (modifyGet fun m =>
        ((m.bindResources s.reflection.resources g).2,
          (m.bindResources s.reflection.resources g).1) : Exec BindGroups) := by
      intro m rest m₁ _ h
      cases h
      exact Machine.keepsStack_bindResources _ m g
    have parts : ∃ rest : Unit → Attempt (DispatchPlan × BindGroups),
        (∀ a, Conduct.stack.inside ScopeArena.root (rest a).run) ∧
        (ofExec (Exec.start s config) >>= rest).run m = .ok (outcome, m₁) := by
      refine ⟨_, fun _ => ?_, h⟩
      dsimp only
      split
      · exact Conduct.eval_throw _
      · rename_i f hf
        refine Conduct.eval_bind (Conduct.eval_workgroupSize shader hf) fun size => ?_
        split
        · refine Conduct.eval_bind (Conduct.eval_throw _) fun _ => ?_
          exact Conduct.eval_bind (Conduct.eval_ofExec bound) fun rest => Conduct.eval_pure _
        · exact Conduct.eval_bind (Conduct.eval_ofExec bound) fun rest => Conduct.eval_pure _
    obtain ⟨rest, hrest, h⟩ := parts
    obtain ⟨outcome', m₂, h₂, h⟩ := Exec.bind_ok h
    change (Exec.start s config >>= fun a => pure (Except.ok a)) m = _ at h₂
    obtain ⟨_, m₃, h₃, hend⟩ := Exec.bind_ok h₂
    cases hend
    obtain ⟨_, m₀, h₀, h₃⟩ := Exec.bind_ok h₃
    cases h₀
    have declared : Machine.KeepsStack (some ScopeArena.root) m.reset m₂ :=
      Exec.keepsStack_forM (fun d _ => Conduct.inside_declaration shader (Conduct.stack_admits _))
        _ () _ Nat.one_pos h₃
    have rested := hrest () m₂ outcome m₁ (declared.depth ▸ Nat.one_pos) h
    exact ⟨rested.depth.trans declared.depth, (rested.parents _).trans (declared.parents _)⟩

/-! ## The invariant -/

namespace Session

/-- A dispatch is being stepped through, with its frames in a tower. -/
structure Running (s : Shader) (t : Session) : Prop where
  tower : Tower t.machine.scopes t.frames
  scope : t.invocationScope = some 1
  laid : s.reflection.layoutErrors = []

/-- The frames of a session and its scopes: a tower of frames while a dispatch runs, no frame
between dispatches, or the frame of a module, which needs no scope but the root. -/
inductive Framed (s : Shader) (t : Session) : Prop
  | running : Running s t → Framed s t
  | idle : t.frames = [] → t.machine.scopes.depth = 1 →
      (t.plan ≠ none → s.reflection.layoutErrors = []) → Framed s t
  | module {f : Frame} : t.frames = [f] → f.kind = .function → f.function = none →
      f.scope = ScopeArena.root → t.machine.scopes.depth = 1 → t.plan = none →
      (∀ c ∈ f.commands, ∃ d, c = .declaration d) → Framed s t

variable {s : Shader} {t t' : Session} {f : Frame} {rest : List Frame} {c : Command}

theorem Running.machine (h : Running s t) {m : Machine} {scope? : Option ScopeId}
    (hm : KeepsStack scope? t.machine m) : Running s { t with machine := m } :=
  ⟨h.tower.congr hm.depth hm.parents, h.scope, h.laid⟩

theorem Running.opened (h : Running s t) : 0 < t.machine.scopes.depth := by
  rw [h.tower.depth]
  exact Nat.succ_pos _

theorem Running.retop (h : Running s t) (hf : t.frames = f :: rest) {g : Frame}
    (hk : g.kind = f.kind) (hs : g.scope = f.scope) :
    Running s { t with frames := g :: rest } :=
  ⟨(hf ▸ h.tower).retop hk hs, h.scope, h.laid⟩

theorem Running.onTop (h : Running s t) {change : Frame → Frame}
    (hk : ∀ f, (change f).kind = f.kind) (hs : ∀ f, (change f).scope = f.scope) :
    Running s (t.onTop change) := by
  unfold Session.onTop
  split
  · exact h
  · exact h.retop ‹_› (hk _) (hs _)

theorem Running.pushFrame (h : Running s t) {kind : FrameKind} {commands : List Command}
    (hk : kind ≠ .function) : Running s (t.pushFrame kind commands) := by
  unfold Session.pushFrame
  cases hf : t.frames with
  | nil => exact h
  | cons f below =>
    have tower : Tower t.machine.scopes (f :: below) := hf ▸ h.tower
    refine ⟨?_, h.scope, h.laid⟩
    refine tower.push rfl ?_ nofun
    rw [Frame.base, if_neg hk, tower.standing.1]
    rfl

theorem Running.popFrame (h : Running s t) : Running s t.popFrame := by
  unfold Session.popFrame
  cases hf : t.frames with
  | nil => exact h
  | cons f below => exact ⟨(hf ▸ h.tower).pop, h.scope, h.laid⟩

/-- Ending an invocation closes every scope but the root. -/
theorem depth_endInvocation
    (h : ((t.frames.foldl (fun a f => a.pop f.scope) t.machine.scopes).depth = 1) ∨
      (t.frames = [] ∧ t.machine.scopes.depth = 2 ∧ t.invocationScope = some 1)) :
    t.endInvocation.machine.scopes.depth = 1 := by
  unfold endInvocation
  dsimp only
  obtain h | ⟨hf, hd, hs⟩ := h
  · cases t.invocationScope with
    | none => exact h
    | some scope =>
      dsimp only
      rw [pop_of_depth_one h]
      exact h
  · rw [hf, hs]
    exact ScopeArena.depth_pop Nat.one_pos (hd ▸ Nat.lt_succ_self 1)

theorem Running.endInvocation (h : Running s t) : Framed s t.endInvocation :=
  .idle rfl (depth_endInvocation (Or.inl h.tower.popAll)) fun _ => h.laid

end Session

/-- After a declaration the next command follows. -/
theorem Eval.next_of_declaration {s : Shader} {config : Config} {scope : ScopeId} {d : Declaration}
    {move : Move} {m m₁ : Machine}
    (h : (Eval.command s config scope (.declaration d)).run m = .ok (.ok move, m₁)) :
    move = .next := by
  rw [Eval.command, ExceptT.run_bind] at h
  obtain ⟨declared, m₂, h₂, h₃⟩ := Exec.bind_ok h
  cases declared <;> cases h₃
  rfl

/-! ## Each step keeps the invariant -/

namespace Step

open Session (Framed Running)

variable {s : Shader} {t t' : Session} {f : Frame} {rest : List Frame} {c : Command}

theorem framed_finishCall (h : Running s t) (hne : t.frames ≠ []) {value : Option Value}
    (hcall : finishCall value t = .ok ((), t')) : Framed s t' := by
  obtain ⟨scopes, f, callers, hunwind, tower⟩ := h.tower.unwind hne
  obtain ⟨hnone, -⟩ | ⟨scopes', f', callers', v, m, hunwind', hvalue, rfl⟩ := finishCall_ok hcall
  · rw [hunwind] at hnone
    cases hnone
  · rw [hunwind] at hunwind'
    cases hunwind'
    have opened : 0 < scopes.depth := by
      rw [tower.depth]
      exact Nat.succ_pos _
    have kept := Exec.keepsStack_frameValue f value { t.machine with scopes } v m opened hvalue
    have tower := tower.congr (b := m.scopes) kept.depth kept.parents
    split
    · rename_i hnil
      subst hnil
      refine .idle rfl (Session.depth_endInvocation (Or.inr ⟨rfl, ?_, h.scope⟩)) fun _ => h.laid
      exact tower.depth
    · have popped : Running s { t with
          machine := { m with scopes := m.scopes.pop f.scope }
          frames := callers } := ⟨tower.pop, h.scope, h.laid⟩
      refine .running (popped.onTop (fun g => ?_) fun g => ?_)
      · cases f.call <;> rfl
      · cases f.call <;> rfl

theorem framed_apply (h : Running s t) (hne : t.frames ≠ []) {line : Nat} {move : Move}
    (hmove : apply line move t = .ok ((), t')) : Framed s t' := by
  have reframed : ∀ {line complaint outcome}, Tower outcome.1 outcome.2.1 →
      reframe line complaint outcome t = .ok ((), t') → Framed s t' := by
    rintro line complaint ⟨scopes, frames, found⟩ tower hmove
    obtain ⟨_, t₁, h₁, hmove⟩ := bind_ok hmove
    cases h₁
    have placed : Running s { t.withScopes scopes with frames } := ⟨tower, h.scope, h.laid⟩
    cases found with
    | true =>
      cases hmove
      exact .running placed
    | false =>
      obtain ⟨m, hm, rfl⟩ := onMachine_ok hmove
      cases hm
      exact .running (placed.machine (KeepsStack.of_eq none rfl rfl))
  cases move with
  | next =>
    cases hmove
    exact .running h
  | jump target =>
    cases hmove
    exact .running (h.onTop (fun _ => rfl) fun _ => rfl)
  | break_ => exact reframed h.tower.leave hmove
  | continue_ => exact reframed h.tower.restart hmove
  | return_ value => exact framed_finishCall h hne hmove
  | enter commands =>
    cases hmove
    exact .running (h.pushFrame nofun)
  | endInvocation =>
    cases hmove
    exact h.endInvocation

theorem framed_runVisible (h : Running s t) (hf : t.frames = f :: rest)
    (hrun : runVisible s f c t = .ok ((), t')) : Framed s t' := by
  obtain ⟨outcome, m, hcommand, hend⟩ := runVisible_ok hf hrun
  have keeps := @Exec.keepsStack_command s f.scope t.config c
  have given : KeepsStack (c.owner? f.scope) t.machine { t.machine with callResults := f.results } :=
    KeepsStack.of_eq _ rfl rfl
  have dropped : KeepsStack (c.owner? f.scope) m { m with callResults := [] } :=
    KeepsStack.of_eq _ rfl rfl
  have kept := (given.trans (keeps _ outcome m h.opened hcommand)).trans dropped
  have after := (h.retop (g := taken f c) hf rfl rfl).machine kept
  dsimp only at hend
  split at hend
  · rw [hend]
    exact after.endInvocation
  · cases outcome with
    | ok move => exact framed_apply after (List.cons_ne_nil _ _) hend
    | error e =>
      rw [hend]
      exact .running (after.machine (KeepsStack.of_eq none rfl rfl))

/-- The frame of a function that is stepped into stands on the frame that calls it. -/
theorem Running.enter (h : Running s t) {call : PendingCall} {scope : ScopeId} {m : Machine}
    (hm : t.machine.Opens ScopeArena.root scope m) :
    Running s { t with machine := m, frames := callFrame call scope :: t.frames } := by
  have pushed : Tower (t.machine.scopes.push ScopeArena.root).1 (callFrame call scope :: t.frames) :=
    h.tower.push hm.fresh rfl fun _ => rfl
  exact ⟨pushed.congr hm.depth hm.parents, h.scope, h.laid⟩

/-- The module has one frame, which runs declarations and ends. -/
theorem framed_module (hf : t.frames = [f]) (hk : f.kind = .function) (hfun : f.function = none)
    (hs : f.scope = ScopeArena.root) (hd : t.machine.scopes.depth = 1) (hp : t.plan = none)
    (hc : ∀ c ∈ f.commands, ∃ d, c = .declaration d) {d : Declaration}
    (hrun : runVisible s f (.declaration d) t = .ok ((), t')) : Framed s t' := by
  obtain ⟨outcome, m, hcommand, hend⟩ := runVisible_ok hf hrun
  have opened : 0 < t.machine.scopes.depth := hd ▸ Nat.one_pos
  have keeps := @Exec.keepsStack_command s f.scope t.config (.declaration d)
  have kept := keeps { t.machine with callResults := f.results } outcome m opened hcommand
  have depth : m.scopes.depth = 1 := kept.depth.trans hd
  have after : ∀ m', m'.scopes = m.scopes →
      Framed s { t with machine := m', frames := [taken f (.declaration d)] } := fun m' hm' =>
    .module rfl hk hfun hs (by rw [hm', depth]) hp hc
  dsimp only at hend
  split at hend
  · rw [hend]
    refine .idle rfl (Session.depth_endInvocation (Or.inl ?_)) fun h => absurd hp h
    rw [List.foldl_cons, List.foldl_nil, pop_of_depth_one depth]
    exact depth
  · cases outcome with
    | ok move =>
      obtain rfl := Eval.next_of_declaration hcommand
      cases hend
      exact after _ rfl
    | error e =>
      rw [hend]
      exact after _ rfl

/-- The frame of a module holds declarations only. -/
theorem declaration_of_next {g : Frame} (hdecl : ∀ c ∈ g.commands, ∃ d, c = .declaration d)
    (hf : t.frames = [g]) (hf' : t.frames = f :: rest) (hc : f.next? = some c) :
    ∃ d, c = .declaration d := by
  cases hf.symm.trans hf'
  exact hdecl c (List.mem_of_getElem? hc)

theorem framed_finishModule (hf : t.frames = [f]) (hk : f.kind = .function)
    (hd : t.machine.scopes.depth = 1) (hp : t.plan = none)
    (hend : finishCall none t = .ok ((), t')) : Framed s t' := by
  have unwound : Session.unwind t.machine.scopes t.frames = (t.machine.scopes, some (f, [])) := by
    rw [hf, Session.unwind, if_pos hk]
  obtain ⟨hnone, -⟩ | ⟨scopes, g, callers, v, m, hunwind, hvalue, rfl⟩ := finishCall_ok hend
  · rw [unwound] at hnone
    cases hnone
  · rw [unwound] at hunwind
    cases hunwind
    cases hvalue
    exact .idle rfl (Session.depth_endInvocation (Or.inl hd)) fun h => absurd hp h

/-- One thing that a step passes over keeps the invariant. -/
theorem framed_passes (h : Framed s t) (hpass : Session.Passes s t t') : Framed s t' := by
  cases hpass with
  | start hf hstart =>
    obtain ⟨-, plan, scope, m, hp, -, hm, rfl⟩ | ⟨habs, -⟩ := startInvocation_ok hstart
    · have idle : t.machine.scopes.depth = 1 ∧ s.reflection.layoutErrors = [] := by
        cases h with
        | running h =>
          refine ⟨?_, h.laid⟩
          rw [h.tower.depth, hf]
          rfl
        | idle _ hd hlaid => exact ⟨hd, hlaid (by rw [hp]; nofun)⟩
        | module hf' => cases hf.symm.trans hf'
      have bare : Tower t.machine.scopes [] := ⟨idle.1, trivial⟩
      have opens := Exec.opens_beginInvocation (idle.1 ▸ Nat.one_pos) hm
      have pushed : Tower (t.machine.scopes.push ScopeArena.root).1 [entryFrame plan scope] :=
        bare.push opens.fresh rfl fun _ => rfl
      have tower := pushed.congr opens.depth opens.parents
      rw [hf]
      exact .running ⟨tower, congrArg some (opens.fresh.trans idle.1), idle.2⟩
    · cases habs
  | finish hf hnone hend =>
    rename_i f rest
    cases h with
    | running h =>
      unfold endFrame at hend
      cases hk : f.kind with
      | function =>
        rw [hk] at hend
        exact framed_finishCall h (hf ▸ List.cons_ne_nil _ _) hend
      | loop target =>
        rw [hk] at hend
        cases hend
        exact .running (h.onTop (fun _ => rfl) fun _ => rfl)
      | block =>
        rw [hk] at hend
        cases hend
        exact .running h.popFrame
      | switch =>
        rw [hk] at hend
        cases hend
        exact .running h.popFrame
    | idle hf' => cases hf.symm.trans hf'
    | module hf' hk hfun hs hd hp hc =>
      cases hf.symm.trans hf'
      unfold endFrame at hend
      rw [hk] at hend
      exact framed_finishModule hf hk hd hp hend
  | jump hf hc =>
    cases h with
    | running h => exact .running (h.onTop (fun _ => rfl) fun _ => rfl)
    | idle hf' => cases hf.symm.trans hf'
    | module hf' _ _ _ _ _ hdecl => cases (declaration_of_next hdecl hf' hf hc).choose_spec
  | block hf hc =>
    cases h with
    | running h =>
      have advanced : Running s (t.onTop Frame.advanced) := h.onTop (fun _ => rfl) fun _ => rfl
      refine .running (advanced.pushFrame ?_)
      nofun
    | idle hf' => cases hf.symm.trans hf'
    | module hf' _ _ _ _ _ hdecl => cases (declaration_of_next hdecl hf' hf hc).choose_spec
  | loop hf hc =>
    cases h with
    | running h =>
      have advanced : Running s (t.onTop Frame.advanced) := h.onTop (fun _ => rfl) fun _ => rfl
      refine .running (advanced.pushFrame ?_)
      nofun
    | idle hf' => cases hf.symm.trans hf'
    | module hf' _ _ _ _ _ hdecl => cases (declaration_of_next hdecl hf' hf hc).choose_spec

theorem framed_visible (h : Framed s t) {enterCalls : Bool} (hf : t.frames = f :: rest)
    (hc : f.next? = some c) (hrun : visible s enterCalls f c t = .ok ((), t')) : Framed s t' := by
  cases h with
  | running h =>
    obtain ⟨call, scope, m, -, -, hm, rfl⟩ | ⟨call, e, m, -, -, hm, hrun⟩ | ⟨-, hrun⟩ :=
      visible_ok hf hrun
    · exact .running (Running.enter h (Exec.opens_bindPending h.opened hm))
    · have kept : KeepsStack none t.machine m := Exec.opens_bindPending h.opened hm
      have diagnosed : KeepsStack none m (reported m (e.at_ call.line)) :=
        KeepsStack.of_eq none rfl rfl
      have noted := (h.retop (g := f.note call.id .void) hf rfl rfl).machine
        (kept.trans diagnosed)
      exact framed_runVisible noted rfl hrun
    · exact framed_runVisible h hf hrun
  | idle hf' => cases hf.symm.trans hf'
  | module hf' hk hfun hs hd hp hdecl =>
    obtain ⟨d, rfl⟩ := declaration_of_next hdecl hf' hf hc
    cases hf.symm.trans hf'
    obtain ⟨call, _, m, -, hcall, -⟩ | ⟨call, e, m, -, hcall, -⟩ | ⟨-, hrun⟩ := visible_ok hf hrun
    · cases hcall
    · cases hcall
    · exact framed_module hf hk hfun hs hd hp hdecl hrun

theorem framed_passesAll (h : Framed s t) (hpasses : Relation.ReflTransGen (Session.Passes s) t t') :
    Framed s t' := by
  induction hpasses with
  | refl => exact h
  | tail _ hpass ih => exact framed_passes ih hpass

/-- Every step keeps the invariant, whatever comes of it. -/
theorem framed_next (h : Framed s t) {enterCalls : Bool} {r : Except Fault Bool}
    (hnext : next s enterCalls t = .ok (r, t')) : Framed s t' := by
  obtain ⟨t₁, hpasses, hstops⟩ := within_ok hnext
  have passed : Framed s t₁ := framed_passesAll h hpasses
  cases hstops with
  | ran hf hc _ hrun => exact framed_visible passed hf hc hrun
  | done => exact passed
  | exhausted => exact passed

/-- A dispatch begins with the frame of its first invocation, if it begins at all. -/
theorem framed_beginDispatch (h : Framed s t) {entry : String} {workgroups : Extent}
    {groups : BindGroups} {config : Config} {r : Except Fault Unit}
    (hbegin : beginDispatch s entry workgroups groups config t = .ok (r, t')) : Framed s t' := by
  obtain ⟨_, t₀, h₀, h₁⟩ := bind_ok hbegin
  cases h₀
  obtain ⟨outcome, t₁, h₁, h₂⟩ := bind_ok h₁
  obtain ⟨m, hm, rfl⟩ := onMachine_ok h₁
  have prepared : m.scopes.depth = 1 ∧ (s.reflection.layoutErrors = [] ∨
      (t.plan = none ∧ ∃ e, outcome = .error e)) := by
    obtain ⟨hlaid, rfl, herror⟩ | ⟨hlaid, hdepth, -⟩ := Attempt.depth_prepare hm
    · -- nothing was laid out, so there can be no dispatch that runs
      cases h with
      | running h => exact absurd h.laid hlaid
      | idle _ hd hplan =>
        refine ⟨hd, Or.inr ⟨?_, herror⟩⟩
        by_contra hne
        exact hlaid (hplan hne)
      | module _ _ _ _ hd hp => exact ⟨hd, Or.inr ⟨hp, herror⟩⟩
    · exact ⟨hdepth, Or.inl hlaid⟩
  cases outcome with
  | error e =>
    cases h₂
    refine .idle rfl prepared.1 fun hplan => ?_
    exact prepared.2.resolve_right fun hnone => hplan hnone.1
  | ok found =>
    have laid : s.reflection.layoutErrors = [] := prepared.2.resolve_right fun hnone => by
      obtain ⟨-, _, habs⟩ := hnone
      cases habs
    obtain ⟨_, t₂, h₃, h₄⟩ := bind_ok h₂
    obtain ⟨b, t₃, h₅, h₆⟩ := bind_ok h₄
    cases h₃
    cases h₆
    have ready : Framed s { t with
        machine := m, frames := [], plan := some found.1, groups := found.2, config
        nextInvocation := 0 } := .idle rfl prepared.1 fun _ => laid
    cases b with
    | true => exact framed_passes ready (.start rfl h₅)
    | false =>
      obtain ⟨habs, -⟩ | ⟨-, rfl, -⟩ := startInvocation_ok h₅
      · cases habs
      · exact ready

theorem framed_beginModule {config : Config} (hbegin : beginModule s config t = .ok ((), t')) :
    Framed s t' := by
  cases hbegin
  refine .module rfl rfl rfl rfl rfl rfl fun c hc => ?_
  obtain ⟨d, -, rfl⟩ := List.mem_map.1 hc
  exact ⟨d, rfl⟩

end Step

/-! ## Reachable sessions -/

namespace Session

variable {s : Shader} {t t' : Session}

/-- The sessions of a shader: a new one, of a machine that runs nothing, and what comes of it when
dispatches and modules are begun and steps are taken, with whatever results. -/
inductive Reachable (s : Shader) : Session → Prop
  | new {machine : Machine} : machine.scopes.depth = 1 → Reachable s { machine }
  | beginDispatch {t t' : Session} (entry : String) (workgroups : Extent) (groups : BindGroups)
      (config : Config) {r : Except Fault Unit} : Reachable s t →
      (Step.beginDispatch s entry workgroups groups config).run t = .ok (r, t') → Reachable s t'
  | beginModule {t t' : Session} (config : Config) : Reachable s t →
      (Step.beginModule s config).run t = .ok ((), t') → Reachable s t'
  | next {t t' : Session} (enterCalls : Bool) {r : Except Fault Bool} : Reachable s t →
      (Step.next s enterCalls).run t = .ok (r, t') → Reachable s t'

theorem Reachable.framed (h : Reachable s t) : Framed s t := by
  induction h with
  | new hdepth => exact .idle rfl hdepth fun h => absurd rfl h
  | beginDispatch _ _ _ _ _ hrun ih => exact Step.framed_beginDispatch ih hrun
  | beginModule _ _ hrun _ => exact Step.framed_beginModule hrun
  | next _ _ hrun ih => exact Step.framed_next ih hrun

/-- What the scope of a frame hangs off. -/
def Hangs (a : ScopeArena Slot) (f : Frame) (below : List Frame) : Prop :=
  match f.kind with
  | .function => a.parent? f.scope = some ScopeArena.root ∨
      (f.function = none ∧ f.scope = ScopeArena.root)
  | .block | .loop _ | .switch => ∃ outer, below.head? = some outer ∧
      a.parent? f.scope = some outer.scope

/-- Frames and scopes of a session, the innermost frame first. -/
structure WellFramed (t : Session) : Prop where
  live : ∀ f ∈ t.frames, t.machine.scopes.isLive f.scope = true
  increasing : t.frames.Pairwise fun inner outer => outer.scope < inner.scope
  hangs : ∀ above f below, t.frames = above ++ f :: below → Hangs t.machine.scopes f below
  depth : t.machine.scopes.depth = t.frames.head?.elim 1 fun f => f.scope + 1

end Session

theorem Standing.scope_le {a : ScopeArena Slot} {frames : List Frame} (h : Standing a frames)
    {f : Frame} (hf : f ∈ frames) : f.scope ≤ frames.length := by
  induction frames with
  | nil => cases hf
  | cons g below ih =>
    obtain rfl | hf := List.mem_cons.1 hf
    · exact Nat.le_of_eq h.1
    · exact Nat.le_succ_of_le (ih h.2.2.2 hf)

theorem Standing.increasing {a : ScopeArena Slot} {frames : List Frame} (h : Standing a frames) :
    frames.Pairwise fun inner outer => outer.scope < inner.scope := by
  induction frames with
  | nil => exact List.Pairwise.nil
  | cons g below ih =>
    obtain ⟨hscope, -, -, hbelow⟩ := h
    refine List.Pairwise.cons (fun f hf => ?_) (ih hbelow)
    rw [hscope]
    exact Nat.lt_succ_of_le (hbelow.scope_le hf)

theorem Standing.hangs {a : ScopeArena Slot} {frames : List Frame} (h : Standing a frames)
    (above : List Frame) (f : Frame) (below : List Frame) (hf : frames = above ++ f :: below) :
    Session.Hangs a f below := by
  induction above generalizing frames with
  | cons g above ih =>
    subst hf
    exact ih h.2.2.2 rfl
  | nil =>
    subst hf
    obtain ⟨-, hparent, hbottom, hbelow⟩ := h
    have inner : f.kind ≠ .function → ∃ outer, below.head? = some outer ∧
        a.parent? f.scope = some outer.scope := by
      intro hk
      rw [Frame.base, if_neg hk] at hparent
      cases below with
      | nil => exact absurd (hbottom rfl) hk
      | cons outer below => exact ⟨outer, rfl, hparent.trans (congrArg some hbelow.1.symm)⟩
    unfold Session.Hangs
    cases hk : f.kind with
    | function =>
      rw [Frame.base, if_pos hk] at hparent
      exact Or.inl hparent
    | block => exact inner (by rw [hk]; nofun)
    | loop target => exact inner (by rw [hk]; nofun)
    | switch => exact inner (by rw [hk]; nofun)

theorem Tower.placed {t : Session} (h : Tower t.machine.scopes t.frames) : t.WellFramed where
  live f hf := by
    refine decide_eq_true ?_
    have hle := h.standing.scope_le hf
    have hdepth : t.machine.scopes.scopes.size = t.frames.length + 1 := h.depth
    rw [hdepth]
    exact Nat.lt_succ_of_le hle
  increasing := h.standing.increasing
  hangs := h.standing.hangs
  depth := by
    have standing := h.standing
    rw [h.depth]
    cases hf : t.frames with
    | nil => rfl
    | cons f below =>
      rw [hf] at standing
      exact congrArg (· + 1) standing.1.symm

/-- In every session each frame has an open scope of its own, deeper frames have later scopes, the
scope of a function hangs off the root and that of any other frame off the scope of the frame
around it, and no scope is open above that of the innermost frame. -/
theorem Session.Reachable.wellFramed {s : Shader} {t : Session} (h : Reachable s t) :
    t.WellFramed := by
  cases h.framed with
  | running h => exact h.tower.placed
  | idle hf hd => exact Tower.placed (by rw [hf]; exact ⟨hd, trivial⟩)
  | @module f hf hk hfun hs hd =>
    refine ⟨fun g hg => ?_, hf ▸ List.pairwise_singleton _ _, fun above g below e => ?_, ?_⟩
    · rw [hf, List.mem_singleton] at hg
      subst hg
      refine decide_eq_true ?_
      rw [hs, show t.machine.scopes.scopes.size = 1 from hd]
      exact Nat.one_pos
    · rw [hf] at e
      obtain ⟨rfl, rfl, rfl⟩ : above = [] ∧ g = f ∧ below = [] := by
        cases above with
        | nil =>
          cases e
          exact ⟨rfl, rfl, rfl⟩
        | cons _ above => cases above <;> cases e
      unfold Hangs
      rw [hk]
      exact Or.inr ⟨hfun, hs⟩
    · rw [hf, hd]
      exact congrArg (· + 1) hs.symm

/-- The shader with one entry point of that body, which runs one invocation for each workgroup. -/
def Shader.ofBody (body : List Stmt) : Shader :=
  let size : Attribute := ⟨"workgroup_size", [.literal ⟨0, 1⟩ (.int 1 none)], 1⟩
  let main : Function := ⟨"main", [], none, [], [size], body, 1, 9⟩
  ⟨⟨[.function main]⟩, ⟨[], [], [], [], [], [], [], [], [], []⟩, [("main", main)]⟩

/-- The session after some steps. -/
def Session.stepped (s : Shader) (steps : List Bool) (t : Session) : Except Fault Session :=
  steps.foldlM (fun t enterCalls => do return (← (Step.next s enterCalls).run t).2) t

/-- The session of a fresh machine after some steps into the function `main`. -/
def Session.after (s : Shader) (steps : List Bool) : Except Fault Session := do
  let m : Machine := { layouts := .ofProgram s.program }
  let r ← (Step.beginDispatch s "main" ⟨1, 1, 1⟩ {} []).run { machine := m }
  Session.stepped s steps r.2

theorem Session.Reachable.stepped {s : Shader} {steps : List Bool} {t t' : Session}
    (ht : Reachable s t) (h : t.stepped s steps = .ok t') : Reachable s t' := by
  induction steps generalizing t with
  | nil =>
    cases h
    exact ht
  | cons enterCalls steps ih =>
    unfold Session.stepped at h
    rw [List.foldlM_cons] at h
    obtain ⟨t₁, hstep, h⟩ := Fault.bind_ok h
    obtain ⟨⟨r, t₂⟩, hnext, hstep⟩ := Fault.bind_ok hstep
    cases hstep
    exact ih (.next enterCalls ht hnext) h

theorem Session.reachable_of_after {s : Shader} {steps : List Bool} {t : Session}
    (h : Session.after s steps = .ok t) : Reachable s t := by
  obtain ⟨⟨r, t₀⟩, hbegin, h⟩ := Fault.bind_ok h
  exact .stepped (.beginDispatch "main" ⟨1, 1, 1⟩ {} [] (.new rfl) hbegin) h

/-- A session that stands in a block of an entry point, after `let lit = true;`. -/
theorem Session.Reachable.wellFramed_block :
    let lit : VarDecl := ⟨"lit", none, none, none, some (.literal ⟨0, 3⟩ (.bool true)), [], 3⟩
    let s := Shader.ofBody [.block 2 [.simple ⟨3, .declare .let_ lit⟩]]
    ∃ t : Session, Reachable s t ∧ t.frames.map Frame.kind = [.block, .function] ∧
      t.WellFramed := by
  intro lit s
  let m : Machine := { layouts := .ofProgram s.program }
  have fresh : Reachable s { machine := m } := .new rfl
  have begun : Reachable s _ := .beginDispatch "main" ⟨1, 1, 1⟩ {} [] fresh rfl
  have stepped : Reachable s _ := .next false begun rfl
  exact ⟨_, stepped, rfl, stepped.wellFramed⟩

end Wgsl
