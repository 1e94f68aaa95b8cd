import Wgsl.Proofs.Machine.Orderly
import Wgsl.Proofs.Stepper.Following
import Wgsl.Proofs.Stepper.Frames

/-! # The body of an entry point run and stepped over

Between invocations only the scope of the module is open. An invocation opens a scope for the entry
point, and if its body can be stepped over and no error is reported, stepping gets to its end with the
same machine, whatever else has been bound in that scope.

* `Machine.Resting`: the state of a machine between invocations.
* `Machine.Entered`: the state in which the body of an entry point begins.
* `Spot.ends_body`: by `drives_stmts`, stepping over the commands of the body comes to its end.
-/

namespace Wgsl
set_option autoImplicit false

open Correspondence

/-! ## Functions that are called -/

/-- The body of some function calls this name. -/
def Program.Called (p : Program) (name : String) : Prop :=
  ∃ f ∈ p.functions, ∃ k args, .expr (.call k name args) ∈ Stmt.listNodes f.body

/-- Where no address is taken, the nodes may run if the calls among them may. -/
theorem AddressFree.admitted_of_calls {C : Correspondence} {ns : List Node} (h : AddressFree ns)
    (hcalls : ∀ k name args, .expr (.call k name args) ∈ ns → C.calls name) :
    ∀ n ∈ ns, n.Admitted C := by
  intro n hn
  match n with
  | .expr (.unary k op e) =>
    cases op with
    | addressOf => exact absurd hn (h k e)
    | _ => trivial
  | .expr (.call k name args) => exact hcalls k name args hn
  | .expr (.literal ..) | .expr (.var ..) | .expr (.binary ..) | .expr (.construct ..)
  | .expr (.bitcast ..) | .expr (.index ..) | .expr (.member ..) | .expr (.group ..) => trivial
  | .type _ => trivial

section

variable {P Q : Surroundings → Stmt → Prop} (hPQ : ∀ c st, P c st → Q c st)

set_option linter.unusedSectionVars false

include hPQ

mutual

/-- A condition that follows from another holds wherever that holds. -/
theorem Stmt.everywhere_mono : ∀ (st : Stmt) {c : Surroundings}, st.Everywhere P c →
    st.Everywhere Q c
  | .simple _, _, h => hPQ _ _ h
  | .ifElse _ _ body rest, _, h =>
    ⟨hPQ _ _ h.1, Stmt.allEverywhere_mono body h.2.1, ElseChain.everywhere_mono rest h.2.2⟩
  | .forLoop _ _ _ _ body, _, h => ⟨hPQ _ _ h.1, Stmt.allEverywhere_mono body h.2⟩
  | .whileLoop _ _ body, _, h => ⟨hPQ _ _ h.1, Stmt.allEverywhere_mono body h.2⟩
  | .loop _ body continuing, _, h =>
    ⟨hPQ _ _ h.1, Stmt.allEverywhere_mono body h.2.1, Stmt.partEverywhere_mono continuing h.2.2⟩
  | .switch _ _ clauses, _, h => ⟨hPQ _ _ h.1, SwitchClause.allEverywhere_mono clauses h.2⟩
  | .block _ body, _, h => ⟨hPQ _ _ h.1, Stmt.allEverywhere_mono body h.2⟩
  | .return_ .., _, h => hPQ _ _ h
  | .break_ _, _, h => hPQ _ _ h
  | .breakIf .., _, h => hPQ _ _ h
  | .continue_ _, _, h => hPQ _ _ h
  | .discard _, _, h => hPQ _ _ h
  | .constAssert .., _, h => hPQ _ _ h

theorem Stmt.allEverywhere_mono : ∀ (body : List Stmt) {c : Surroundings},
    Stmt.AllEverywhere P c body → Stmt.AllEverywhere Q c body
  | [], _, _ => trivial
  | st :: rest, _, h => ⟨st.everywhere_mono h.1, Stmt.allEverywhere_mono rest h.2⟩

theorem Stmt.partEverywhere_mono : ∀ (body : Option (List Stmt)) {c : Surroundings},
    Stmt.PartEverywhere P c body → Stmt.PartEverywhere Q c body
  | none, _, _ => trivial
  | some body, _, h => Stmt.allEverywhere_mono body h

theorem ElseChain.everywhere_mono : ∀ (rest : ElseChain) {c : Surroundings},
    rest.Everywhere P c → rest.Everywhere Q c
  | .none, _, _ => trivial
  | .else_ body, _, h => Stmt.allEverywhere_mono body h
  | .elseIf _ _ body rest, _, h =>
    ⟨Stmt.allEverywhere_mono body h.1, ElseChain.everywhere_mono rest h.2⟩

theorem SwitchClause.allEverywhere_mono : ∀ (clauses : List SwitchClause) {c : Surroundings},
    SwitchClause.AllEverywhere P c clauses → SwitchClause.AllEverywhere Q c clauses
  | [], _, _ => trivial
  | .mk _ _ _ body :: rest, _, h =>
    ⟨Stmt.allEverywhere_mono body h.1, SwitchClause.allEverywhere_mono rest h.2⟩

end

end

/-! ## Between invocations -/

/-- Only the scope of the module is open, and no name in it is bound to a pointer. -/
structure Machine.Resting (p : Program) (m : Machine) : Prop where
  plain : m.PlainIn p
  depth : m.scopes.depth = 1
  parent : m.scopes.parent? ScopeArena.root = none

/-- The body of an entry point begins: its scope is open, and binds what a body finds there. -/
structure Machine.Entered (p : Program) (f : Function) (m : Machine) : Prop where
  plain : m.PlainIn p
  ready : m.Ready 1
  names : ∀ n, (m.scopes.lookup 1 n).isSome → (f.surroundings p).names n
  calm : m.discarded = false

theorem Machine.Resting.nested {p : Program} {m : Machine} (h : m.Resting p) : m.scopes.Nested := by
  intro id parent hid
  have live := ScopeArena.lt_depth_of_parent? hid
  rw [h.depth] at live
  obtain rfl : id = ScopeArena.root := Nat.lt_one_iff.1 live
  rw [h.parent] at hid
  cases hid

/-- Reports stay, one after another. -/
theorem Exec.spoils_forM {β : Type} {F : β → Exec PUnit} {items : List β}
    (h : ∀ b ∈ items, (F b).Spoils) : (items.forM F).Spoils := by
  induction items with
  | nil => exact spoils_pure _
  | cons b items ih =>
    rw [List.forM_eq_forM, List.forM_cons]
    exact spoils_bind (h b List.mem_cons_self) fun _ => ih fun c hc => h c (List.mem_cons_of_mem _ hc)

section

variable {p : Program} {s : Shader} {l : Layouts} {config : Config} {plan : DispatchPlan}
  {index : Nat} {scope : ScopeId} {m m₁ : Machine} {flow : Flow}
  (hp : Shader.ofProgram p = .ok (s, l)) (hfree : AddressFree p.nodes)

include hp hfree

/-- A dispatch that can start leaves the scope of the module open. -/
theorem Attempt.resting_prepare {entry : String} {workgroups : Extent} {g rest : BindGroups}
    (h : (prepare s entry workgroups g config).run m = .ok (.ok (plan, rest), m₁)) :
    m₁.Resting p := by
  have plain := (plain_prepare hp hfree h).1
  obtain ⟨-, -, e, he⟩ | ⟨-, depth, parent⟩ := depth_prepare h
  · cases he
  · exact ⟨plain, depth, parent⟩

/-- An invocation opens the first scope behind that of the module. -/
theorem Exec.entered_beginInvocation (hm : m.Resting p)
    (h : beginInvocation s plan index m = .ok (scope, m₁)) : scope = 1 ∧ m₁.Entered p plan.entry := by
  have opens := opens_beginInvocation (hm.depth ▸ Nat.one_pos) h
  have plain := plain_beginInvocation hp hfree hm.plain h
  have only := bindsOnly_beginInvocation h
  have pushed := hm.nested.push (hm.depth ▸ Nat.one_pos : ScopeArena.root < m.scopes.depth)
  obtain rfl : scope = 1 := opens.fresh.trans hm.depth
  have depth : m₁.scopes.depth = 1 + 1 := by rw [opens.depth, ScopeArena.depth_push, hm.depth]
  have parent : m₁.scopes.parent? 1 = some ScopeArena.root := by
    have fresh : (m.scopes.push ScopeArena.root).1.parent? m.scopes.depth = some ScopeArena.root :=
      ScopeArena.parent?_push_depth
    rw [hm.depth] at fresh
    exact (opens.parents 1).trans fresh
  have nested : m₁.scopes.Nested := fun id parent hid => pushed id parent ((opens.parents id).symm.trans hid)
  refine ⟨rfl, plain, ?_, fun n hn => ?_, discarded_beginInvocation h⟩
  · refine ⟨Nat.one_ne_zero, depth, nested, fun k h₀ h₁ => ?_, plain.slots, plain.callResults⟩
    obtain rfl : k = 1 := Nat.le_antisymm h₁ h₀
    rw [parent]
    rfl
  · cases hf : m₁.scopes.findIn? 1 n with
    | some slot => exact Or.inr ((only.2 n (Option.isSome_of_eq_some hf)).imp_right Or.inl)
    | none =>
      rw [nested.lookup_of_none hf, parent, Option.bind_some] at hn
      obtain ⟨⟨owner, slot⟩, hl⟩ := Option.isSome_iff_exists.1 hn
      obtain ⟨bound, ho⟩ := nested.findIn?_of_lookup _ hl
      obtain rfl : owner = ScopeArena.root := Nat.le_zero.1 ho
      exact Or.inl (plain.root n (Option.isSome_of_eq_some bound))

/-- Where an invocation ends silently, it has begun so. -/
theorem Exec.silent_beginInvocation (hm : m.PlainIn p)
    (h : beginInvocation s plan index m = .ok (scope, m₁)) (h₁ : m₁.diagnostics = #[]) :
    m.diagnostics = #[] := by
  by_contra hne
  have L := lawful_solo fun n => n ∈ p.valueNames
  obtain ⟨_, m₂, hreset, h⟩ := bind_ok h
  obtain ⟨vars, m', hvars, hreset⟩ := bind_ok hreset
  cases hvars
  have reset : Spoils ((m.moduleVars.filter fun v =>
      decide ((plan.invocation index).localIndex = 0) || v.storage != some "workgroup").forM fun v =>
        reporting v.line (Eval.declare s (Eval.call s) ScopeArena.root v)) := by
    refine spoils_forM fun v hv => ?_
    obtain ⟨free, named⟩ := hm.vars v (List.mem_of_mem_filter hv)
    have admitted := VarDecl.admitted_of_nodes (C := p.solo) (S := fun _ => True) (fun _ => trivial)
      (free.admitted fun _ => trivial)
    exact (sim_reporting (p := True) L v.line (Eval.evalSim_declare (w := none) L
      (p.answers_solo hp hfree) (fun _ h => h) (fun _ => named) admitted)).spoils
  have others : Spoils (do
      modify fun m => { m with discarded := false }
      let scope ← pushScope ScopeArena.root
      ((plan.invocation index).builtins plan.workgroups).forM fun b =>
        bind scope b.1 (.value b.2)
      plan.entry.args.forM (bindArgument s plan.entry scope)
      return scope) := by
    have quiet : ∀ {α : Type} (f : Machine → α × Machine),
        (∀ m, (f m).2.diagnostics = m.diagnostics) → Spoils (modifyGet f : Exec α) := by
      intro α f hf m a m₁ h hm
      have ended : f m = (a, m₁) := Except.ok.inj h
      have same := hf m
      rw [ended] at same
      exact same ▸ hm
    refine spoils_bind (quiet _ fun _ => rfl) fun _ => spoils_bind (quiet _ fun _ => rfl) fun scope => ?_
    refine spoils_bind (spoils_forM fun b _ => quiet _ fun _ => rfl) fun _ => ?_
    refine spoils_bind (spoils_forM fun arg _ => ?_) fun _ => spoils_pure _
    exact (sim_bindArgument (p := True) (w := some scope) L (fun _ => Eval.evalSim_builtinValue)
      plan.entry fun h => by cases h).spoils
  exact others m₂ scope m₁ h (reset m _ m₂ hreset hne) h₁

/-- The body of an entry point binds no name to a pointer. -/
theorem Exec.plain_stmts {f : Function} {name : String} (hf : s.function? name = some f)
    (hm : m.PlainIn p) (hscope : scope ≠ ScopeArena.root)
    (h : Eval.stmts s (Eval.call s) scope f.body m = .ok (flow, m₁)) : m₁.PlainIn p := by
  have L := lawful_solo fun n => n ∈ p.valueNames
  have free : AddressFree (Stmt.listNodes f.body) :=
    (Function.addressFree hp hfree hf).mono (List.subset_append_right _ _)
  have admitted := Stmt.allAdmitted_of_nodes (C := p.solo) f.body (fun _ => True)
    ⟨fun _ => True, True, True⟩ (fun _ => trivial) (free.admitted fun _ => trivial) fun hl => hl.elim
  have alone : p.solo.Sim True (some scope) (some scope) p.solo.flows
      (Eval.stmts s (Eval.call s) scope f.body) (Eval.stmts s (Eval.call s) scope f.body) :=
    Eval.sim_stmts L (p.answers_solo hp hfree) f.body True (some scope) (fun _ => True) nofun
      (fun _ h => h) admitted
  have inner : some scope ≠ some ScopeArena.root := fun e => hscope (Option.some.inj e)
  have started : p.solo.rel (some scope) m m := ⟨rfl, hm, inner⟩
  exact (Bridge.related_self (alone.tracks fun h => h) started h).2.1

/-! ## Bodies -/

/-- Functions in which nothing is discarded are called alike from overlaid scopes. -/
theorem Program.answers_called (hcalled : ∀ name f, p.Called name → s.function? name = some f →
      f.Everywhere Stmt.Keeping p) :
    (Overlay.correspondence True (fun n => n ∈ p.valueNames) p.Called).Answers s (Eval.call s)
      (Eval.call s) := by
  refine Eval.answers_callWithin (Overlay.lawful _ _ _) (fun name f hc hf => ?_) maxCallDepth
  have free : AddressFree (Stmt.listNodes f.body) :=
    (Function.addressFree hp hfree hf).mono (List.subset_append_right _ _)
  have listed : f ∈ p.functions := (Shader.mem_of_function? hp hf).1
  have nodes := free.admitted_of_calls
    (C := Overlay.correspondence True (fun n => n ∈ p.valueNames) p.Called)
    fun k callee args hn => ⟨f, listed, k, args, hn⟩
  exact Stmt.allAdmitted_of_nodes f.body _ (f.surroundings p) (fun _ => Or.inl trivial) nodes
    fun _ => hcalled name f hc hf

end

/-- What is left of an arena when all scopes but the root are closed. -/
theorem ScopeArena.pop_one {α : Type} {a a' : ScopeArena α} (ha : 1 < a.depth) (ha' : 1 < a'.depth)
    (root : a'.scope? root = a.scope? root) : a'.pop 1 = a.pop 1 := by
  have depth : (a.pop 1).scopes.size = 1 := depth_pop Nat.one_pos ha
  have depth' : (a'.pop 1).scopes.size = 1 := depth_pop Nat.one_pos ha'
  have same : ∀ i : Nat, (a'.pop 1).scopes[i]? = (a.pop 1).scopes[i]? := by
    intro i
    obtain rfl | hi := Nat.eq_zero_or_pos i
    · exact (scope?_pop Nat.one_pos).trans (root.trans (scope?_pop Nat.one_pos).symm)
    · rw [Array.getElem?_eq_none (depth'.trans_le hi), Array.getElem?_eq_none (depth.trans_le hi)]
  exact congrArg ScopeArena.mk (Array.ext_getElem? same)

/-- Machines that are overlaid in the scope of an entry point are the same once it is closed, if no error
has been reported. -/
theorem Overlay.Related.popped_one {lax : Prop} {names : String → Prop} {o : Overlay} {m m' : Machine}
    (h : o.Related lax names m m') (hs : o.scope = 1) (hs' : o.scope' = 1)
    (silent : m.diagnostics = #[]) : m'.popped 1 = m.popped 1 := by
  obtain ⟨-, ⟨fits, -⟩, causes⟩ := h
  rename_i a' d'
  have quiet : d' = #[] := by
    have none : d'.map RunError.cause = #[].map RunError.cause := silent ▸ causes
    rw [Array.map_empty] at none
    exact Array.map_eq_empty_iff.1 none
  have depth : 1 < m.scopes.depth := by rw [fits.depth, hs]; exact Nat.lt_succ_self 1
  have depth' : 1 < a'.depth := by rw [fits.depth', hs']; exact Nat.lt_succ_self 1
  have arena := ScopeArena.pop_one depth depth' fits.root
  subst quiet
  unfold Machine.popped
  dsimp only
  rw [arena, ← silent]

section

variable {p : Program} {s : Shader} {l : Layouts} {f : Function} {name : String} {m m₁ : Machine}
  {flow : Flow} (hp : Shader.ofProgram p = .ok (s, l)) (hfree : AddressFree p.nodes)
  (hcalled : ∀ name f, p.Called name → s.function? name = some f → f.Everywhere Stmt.Keeping p)

include hp hfree hcalled

/-- Stepping over the commands of an entry point comes to the end that a silent run of its body has.
The machines are the same once the scope of the entry point is closed. -/
theorem Spot.ends_body {q : Spot} (hf : s.function? name = some f)
    (hsteps : f.Everywhere Stmt.Steppable p) (hq : q.frame.commands = f.commands)
    (hscope : q.frame.scope = 1) (hm : m.Entered p f)
    (hrun : Eval.stmts s (Eval.call s) 1 f.body m = .ok (flow, m₁)) (silent : m₁.diagnostics = #[])
    (line : Nat) : ∃ m' j line', m'.popped 1 = m₁.popped 1 ∧ flow.Lands (f.surroundings p) ∧
      (flow = .normal → j = f.commands.length) ∧
      (q.standing m 0 line).Ends q s flow (q.standing m' j line') := by
  let names : String → Prop := fun n => n ∈ p.valueNames
  let o := Overlay.identity m 1 (Stmt.declared f.body)
  have free : AddressFree (Stmt.listNodes f.body) :=
    (Function.addressFree hp hfree hf).mono (List.subset_append_right _ _)
  have listed : f ∈ p.functions := (Shader.mem_of_function? hp hf).1
  have nodes := free.admitted_of_calls (C := Overlay.correspondence True names p.Called)
    fun k callee args hn => ⟨f, listed, k, args, hn⟩
  have begun : m.diagnostics = #[] := by
    by_contra hne
    exact Eval.spoils_stmts (p.answers_solo hp hfree) 1 (fun n hn => (nodes n hn).solo) m flow m₁
      hrun hne silent
  have clear : m.Clear True names := ⟨fun _ => begun, fun _ => hm.calm, hm.ready.callResults,
    fun _ => hm.plain.vars⟩
  have smooth : Stmt.AllEverywhere (Stmt.Smooth True) (f.surroundings p) f.body :=
    Stmt.allEverywhere_mono (fun _ _ steppable => ⟨steppable, Or.inl trivial⟩) f.body hsteps
  have meets : q.Meets q o (f.surroundings p) := {
    lies := ⟨Or.inl rfl, False.elim, False.elim⟩
    scope := hscope
    sight := fun n hn => hn.elim (hm.names n) fun hn => Or.inr (Or.inr (Or.inr hn)) }
  have declares : ∀ n ∈ Stmt.declared f.body, o.Declares n := fun n hn => ⟨rfl, trivial, Or.inr hn⟩
  have holds : q.Holds 0 (Stmt.listCommands 0 f.body) := by
    have whole := Spot.Holds.whole q
    rwa [hq] at whole
  have drives := drives_stmts (p.answers_called hp hfree hcalled) (p.answers_solo hp hfree) f.body 0
    meets smooth nodes (fun _ _ => Or.inl trivial) declares holds (Or.inl rfl)
  obtain ⟨-, ⟨hlax, -⟩ | ⟨-, lands, m', j, line', hm', hj, ends⟩⟩ :=
    drives m m line (hm.ready.related clear _) flow m₁ hrun fun _ => silent
  · exact absurd trivial hlax
  · have related : o.Related True names m₁ m' := by
      cases flow with
      | normal => exact hm'.forget
      | _ => exact hm'
    rw [Nat.zero_add] at hj
    exact ⟨m', j, line', related.popped_one rfl rfl silent, lands, hj, ends⟩

end

end Wgsl
