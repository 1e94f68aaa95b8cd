import Wgsl.Proofs.Machine.Enclosed
import Wgsl.Proofs.Machine.Grid

/-! # Invocations do not see each other

What an invocation leaves in the variables that the next one declares anew makes no difference to
that one: it begins in the same scopes whatever they held.

* `Program.Consults`, `Program.Sheltered`: the names that initializers of variables mention, and
  what is asked of them.
* `Machine.Between`: two states between invocations that differ in some variables at most.
* `Exec.between_resetVariables`: declaring these variables anew, one after another, makes the states
  agree.
* `Machine.Level`: two machines that the rest of the beginning cannot tell apart.
* `Exec.beginInvocation_isolated`: an invocation begins in the same scopes from both.
-/

namespace Wgsl
set_option autoImplicit false

/-! ## Declaring variables anew -/

variable {s : Shader} {names : String → Prop} {m m' : Machine}

/-- Two states between invocations. Apart from the variables named they agree on all that the module
has bound, and they agree on what initializers look at. -/
structure Machine.Between (names : String → Prop) (apart : List String) (m m' : Machine) : Prop where
  agree : m.Agree names m'
  callDepth : m'.callDepth = m.callDepth
  tables : ∃ t t', m.scopes = .alone t ∧ m'.scopes = .alone t' ∧ (t.map Prod.fst).Nodup ∧
    t'.map Prod.fst = t.map Prod.fst ∧ ∀ n, n ∉ apart → t'.find? n = t.find? n

/-- A variable of the module declared anew: it is bound to its initial value or, where that has
failed, to nothing of use. -/
def Machine.redeclared (m : Machine) (v : VarDecl) (r : Run Value) : Machine :=
  { m.bind ScopeArena.root v.name (.value (r.toOption.getD .void)) with
    diagnostics := match r with
      | .ok _ => m.diagnostics
      | .error e => m.diagnostics.push (e.at_ v.line) }

namespace Machine

variable {v : VarDecl} {apart : List String} {t : Table Slot}

theorem scopes_redeclared (h : m.scopes = .alone t) (r : Run Value) : (m.redeclared v r).scopes =
    .alone (t.insert v.name (.value (r.toOption.getD .void))) :=
  congrArg (fun a : ScopeArena Slot => a.insert ScopeArena.root v.name _) h

/-- Declaring a variable anew makes the states agree on it as well. -/
theorem Between.redeclared (hv : ¬names v.name) (h : m.Between names (v.name :: apart) m')
    (r : Run Value) : (m.redeclared v r).Between names apart (m'.redeclared v r) := by
  obtain ⟨t, t', ht, ht', distinct, keys, same⟩ := h.tables
  obtain ⟨u, u', hu, hu', among⟩ := h.agree.tables
  obtain rfl := ScopeArena.alone_injective (ht.symm.trans hu)
  obtain rfl := ScopeArena.alone_injective (ht'.symm.trans hu')
  have others : ∀ (w : Table Slot) (slot : Slot) {n : String}, names n →
      (w.insert v.name slot).find? n = w.find? n := fun w slot n hn =>
    Table.find?_insert_of_ne w slot fun e => hv (e ▸ hn)
  refine ⟨{ h.agree with tables := ?_ }, h.callDepth, ?_⟩
  · refine ⟨_, _, scopes_redeclared ht r, scopes_redeclared ht' r, fun n hn => ?_⟩
    rw [others _ _ hn, others _ _ hn]
    exact among n hn
  · refine ⟨_, _, scopes_redeclared ht r, scopes_redeclared ht' r,
      Table.nodup_insert distinct _ _, ?_, fun n hn => ?_⟩
    · rw [Table.names_insert, Table.names_insert, keys]
    · by_cases hname : n = v.name
      · rw [hname, Table.find?_insert_self, Table.find?_insert_self]
      · rw [Table.find?_insert_of_ne _ _ hname, Table.find?_insert_of_ne _ _ hname]
        exact same n (List.not_mem_cons_of_ne_of_not_mem hname hn)

/-- Finding out an initial value keeps the states as alike as they are. -/
theorem Between.of_spares {m₁ m₁' : Machine} (h : m.Between names apart m')
    (agree : m₁.Agree names m₁') (spares : m.Spares names m₁) (spares' : m'.Spares names m₁') :
    m₁.Between names apart m₁' := by
  obtain ⟨t, t', ht, ht', distinct, keys, same⟩ := h.tables
  obtain ⟨t₁, ht₁, keys₁, kept⟩ := spares.tables t ht
  obtain ⟨t₁', ht₁', keys₁', kept'⟩ := spares'.tables t' ht'
  obtain ⟨u, u', hu, hu', among⟩ := agree.tables
  obtain rfl := ScopeArena.alone_injective (ht₁.symm.trans hu)
  obtain rfl := ScopeArena.alone_injective (ht₁'.symm.trans hu')
  refine ⟨agree, ?_, _, _, ht₁, ht₁', keys₁ ▸ distinct, ?_, fun n hn => ?_⟩
  · rw [spares.rest, spares'.rest]
    exact h.callDepth
  · rw [keys₁', keys, keys₁]
  · by_cases hnames : names n
    · exact (among n hnames).1
    · rw [kept n hnames, kept' n hnames]
      exact same n hn

end Machine

namespace Exec

/-- Two computations on two machines end alike: with the same fault, or with the same answer in
machines that are related. -/
def EndAlike {α : Type} (R : Machine → Machine → Prop) (end_ end_' : Except Fault (α × Machine)) : Prop :=
  (∃ f, end_ = .error f ∧ end_' = .error f) ∨
    ∃ a n n', end_ = .ok (a, n) ∧ end_' = .ok (a, n') ∧ R n n'

variable {α β : Type} {R S : Machine → Machine → Prop} {x : Exec α} {f : α → Exec β}

theorem EndAlike.bind (hx : EndAlike R (x m) (x m'))
    (hf : ∀ a n n', R n n' → EndAlike S (f a n) (f a n')) :
    EndAlike S ((x >>= f) m) ((x >>= f) m') := by
  obtain ⟨e, he, he'⟩ | ⟨a, n, n', ha, ha', hn⟩ := hx
  · exact .inl ⟨e, bind_of_error he, bind_of_error he'⟩
  · rw [bind_of_ok ha, bind_of_ok ha']
    exact hf a n n' hn

/-- What the states have in common is kept in two runs that start from either. -/
theorem between_initialValue {v : VarDecl} (apart : List String)
    (h : ∀ e ∈ v.value, ∀ x ∈ e.mentions, x.Within s names) (hm : m.Between names apart m') :
    EndAlike (Machine.Between names apart)
      ((Eval.initialValue s (Eval.call s) ScopeArena.root v).run m)
      ((Eval.initialValue s (Eval.call s) ScopeArena.root v).run m') := by
  have keeps : Eval.KeepsTo names _ (Eval.initialValue s (Eval.call s) ScopeArena.root v) :=
    Eval.keepsTo_initialValue h
  obtain ended | ⟨r, m₁, m₁', hr, hr', -, agree, spares⟩ := keeps m m' hm.agree
  · exact .inl ended
  · refine .inr ⟨r, m₁, m₁', hr, hr', hm.of_spares agree spares ?_⟩
    -- the second run leaves as much alone, seen as the first of the two
    obtain ⟨f, hf, -⟩ | ⟨r₂, n, -, hn, -, -, -, spares'⟩ := keeps m' m hm.agree.symm
    · rw [hr'] at hf
      cases hf
    · rw [hr'] at hn
      cases hn
      exact spares'

theorem reporting_declare (v : VarDecl) :
    reporting v.line (Eval.declare s (Eval.call s) ScopeArena.root v) =
      (Eval.initialValue s (Eval.call s) ScopeArena.root v).run >>= fun r =>
        modify fun m => m.redeclared v r := by
  unfold reporting Eval.declare
  change ((_ >>= _) >>= _ : Exec Unit) = _
  rw [bind_assoc]
  refine bind_congr fun r => ?_
  cases r with
  | ok a => rfl
  | error e => rfl

/-- Declaring variables anew, one after another, makes the states agree on all of them. -/
theorem between_forM {vars : List VarDecl}
    (h : ∀ v ∈ vars, ¬names v.name ∧ ∀ e ∈ v.value, ∀ x ∈ e.mentions, x.Within s names)
    (hm : m.Between names (vars.map VarDecl.name) m') :
    EndAlike (Machine.Between names [])
      ((vars.forM fun v => reporting v.line (Eval.declare s (Eval.call s) ScopeArena.root v)) m)
      ((vars.forM fun v => reporting v.line (Eval.declare s (Eval.call s) ScopeArena.root v)) m') := by
  induction vars generalizing m m' with
  | nil => exact .inr ⟨_, m, m', rfl, rfl, hm⟩
  | cons v vars ih =>
    obtain ⟨⟨hname, hvalue⟩, hrest⟩ := List.forall_mem_cons.1 h
    rw [List.forM_eq_forM, List.forM_cons, reporting_declare]
    refine EndAlike.bind (R := Machine.Between names (vars.map VarDecl.name)) ?_
      fun _ n n' hn => ih hrest hn
    refine (between_initialValue _ hvalue hm).bind fun r n n' hn => ?_
    exact .inr ⟨_, _, _, rfl, rfl, hn.redeclared hname r⟩

theorem endAlike_forM {γ : Type} {F : γ → Exec PUnit} {items : List γ}
    (hF : ∀ b ∈ items, ∀ m m', R m m' → EndAlike R (F b m) (F b m')) (hm : R m m') :
    EndAlike R (items.forM F m) (items.forM F m') := by
  induction items generalizing m m' with
  | nil => exact .inr ⟨_, m, m', rfl, rfl, hm⟩
  | cons b items ih =>
    rw [List.forM_eq_forM, List.forM_cons]
    exact (hF b List.mem_cons_self m m' hm).bind fun _ n n' hn =>
      ih (fun c hc => hF c (List.mem_cons_of_mem _ hc)) hn

end Exec

/-! ## The rest of the beginning -/

/-- Two machines that agree on all that the rest of the beginning looks at. -/
structure Machine.Level (m m' : Machine) : Prop where
  layouts : m'.layouts = m.layouts
  scopes : m'.scopes = m.scopes
  callDepth : m'.callDepth = m.callDepth
  discarded : m'.discarded = m.discarded

/-- The variables that are declared anew when an invocation begins: those of the workgroup where it
is the first of one, and all others. -/
def Machine.anew (m : Machine) (plan : DispatchPlan) (index : Nat) : List VarDecl :=
  m.moduleVars.filter fun v => (plan.invocation index).localIndex = 0 || v.storage != some "workgroup"

namespace Machine

theorem Between.level (h : m.Between names [] m') :
    Level { m with discarded := false } { m' with discarded := false } := by
  obtain ⟨t, t', ht, ht', distinct, keys, same⟩ := h.tables
  refine ⟨h.agree.layouts, ?_, h.callDepth, rfl⟩
  change m'.scopes = m.scopes
  rw [ht, ht', Table.eq_of_find? distinct keys fun n => same n List.not_mem_nil]

theorem Level.bind (h : m.Level m') (scope : ScopeId) (name : String) (slot : Slot) :
    (m.bind scope name slot).Level (m'.bind scope name slot) :=
  { h with scopes := congrArg (fun a : ScopeArena Slot => a.insert scope name slot) h.scopes }

end Machine

namespace Exec

variable {plan : DispatchPlan}

theorem level_bindArgument (entry : Function) (scope : ScopeId) (arg : Field) (h : m.Level m') :
    EndAlike Machine.Level (bindArgument s entry scope arg m) (bindArgument s entry scope arg m') := by
  refine EndAlike.bind (R := Machine.Level) ?_ fun outcome n n' hn => ?_
  · obtain ended | ⟨r, l, hr, hr'⟩ := Eval.readsScopes_argument s scope
      (s.program.structs.length + 1) arg.attributes arg.type m m' h.layouts h.scopes
    · exact .inl ended
    · exact .inr ⟨r, _, _, hr, hr', { h with layouts := rfl }⟩
  · cases outcome with
    | ok v => exact .inr ⟨_, _, _, rfl, rfl, hn.bind scope arg.name _⟩
    | error e =>
      have reported : Machine.Level
          { n with diagnostics := n.diagnostics.push (e.at_ entry.startLine) }
          { n' with diagnostics := n'.diagnostics.push (e.at_ entry.startLine) } := { hn with }
      exact .inr ⟨_, _, _, rfl, rfl, reported.bind scope arg.name _⟩

/-- From two states that differ in what is declared anew only, an invocation begins alike. -/
theorem level_beginInvocation {index : Nat}
    (h : ∀ v ∈ m.moduleVars, ¬names v.name ∧ ∀ e ∈ v.value, ∀ x ∈ e.mentions, x.Within s names)
    (hvars : m'.moduleVars = m.moduleVars)
    (hm : m.Between names ((m.anew plan index).map VarDecl.name) m') :
    EndAlike Machine.Level (beginInvocation s plan index m) (beginInvocation s plan index m') := by
  refine EndAlike.bind (R := Machine.Between names []) ?_ fun _ n n' hn => ?_
  · have again := between_forM (s := s) (fun v hv => h v (List.mem_filter.1 hv).1) hm
    unfold resetVariables
    rw [bind_of_ok (x := get) rfl, bind_of_ok (x := get) rfl, hvars]
    exact again
  · refine EndAlike.bind (R := Machine.Level) (.inr ⟨_, _, _, rfl, rfl, hn.level⟩) fun _ k k' hk => ?_
    have pushed : EndAlike Machine.Level (pushScope ScopeArena.root k) (pushScope ScopeArena.root k') := by
      refine .inr ⟨k.scopes.depth, k.pushed ScopeArena.root, k'.pushed ScopeArena.root, rfl, ?_, ?_⟩
      · rw [← hk.scopes]
        rfl
      · exact { hk with scopes := congrArg (fun a : ScopeArena Slot => (a.push _).1) hk.scopes }
    refine pushed.bind fun scope _ _ hk => ?_
    refine EndAlike.bind (endAlike_forM (fun b _ _ _ hn => ?_) hk) fun _ _ _ hk => ?_
    · exact .inr ⟨_, _, _, rfl, rfl, hn.bind scope b.1 _⟩
    · refine EndAlike.bind (endAlike_forM (fun arg _ _ _ hn => ?_) hk) fun _ k k' hk => ?_
      · exact level_bindArgument plan.entry scope arg hn
      · exact .inr ⟨scope, k, k', rfl, rfl, hk⟩

/-- The layouts that are remembered make no difference to how an invocation begins. -/
theorem oblivious_beginInvocation {settled : Layouts} {nodes : List Node} {hs : settled.Settled}
    {hapart : LayoutM.TypesApart nodes} (h : (Conduct.oblivious hs hapart).AdmitsShader s)
    {entry : String} (hentry : s.function? entry = some plan.entry) (index : Nat) :
    (beginInvocation s plan index).Oblivious settled nodes := by
  have admitted := h.functions entry plan.entry hentry
  refine oblivious_bind (Conduct.inside_resetVariables h _) fun _ => ?_
  refine oblivious_bind (oblivious_modifyGet (fun _ _ => rfl) fun _ hm => hm) fun _ => ?_
  refine oblivious_bind (oblivious_modifyGet (fun _ _ => rfl) fun _ hm => hm) fun scope => ?_
  refine oblivious_bind (@Conduct.obeys_forM _ _ (some scope) _ _ fun b _ =>
    (Conduct.oblivious hs hapart).obeys_bindName _ _ _) fun _ => ?_
  refine oblivious_bind (@Conduct.obeys_forM _ _ (some scope) _ _ fun arg harg =>
    Conduct.inside_bindArgument h admitted harg) fun _ => ?_
  exact oblivious_pure scope

end Exec

/-! ## States of a program between invocations -/

/-- The mention is of no variable of the module and of no declared function. -/
def Mention.Sheltered (p : Program) : Mention → Prop
  | .variable_ name => ∀ v ∈ p.values .var, v.name ≠ name
  | .call name => ∀ f ∈ p.functions, f.name ≠ name
  | _ => True

instance (p : Program) : ∀ x : Mention, Decidable (x.Sheltered p)
  | .variable_ name => inferInstanceAs (Decidable (∀ v ∈ p.values .var, v.name ≠ name))
  | .call name => inferInstanceAs (Decidable (∀ f ∈ p.functions, f.name ≠ name))
  | .enter | .leave | .declare _ | .type _ => inferInstanceAs (Decidable True)

namespace Program

variable {p : Program}

/-- No initializer of a variable of the module mentions a variable of the module or calls a declared
function: consts and overrides are left. -/
def Sheltered (p : Program) : Prop :=
  ∀ v ∈ p.values .var, ∀ e ∈ v.value, ∀ x ∈ e.mentions, x.Sheltered p

instance (p : Program) : Decidable p.Sheltered :=
  inferInstanceAs (Decidable (∀ v ∈ p.values .var, ∀ e ∈ v.value, ∀ x ∈ e.mentions, x.Sheltered p))

/-- Some initializer of a variable of the module mentions the name. -/
def Consults (p : Program) (name : String) : Prop :=
  ∃ v ∈ p.values .var, ∃ e ∈ v.value, .variable_ name ∈ e.mentions

/-- Two states of a program between invocations, in which the same names are bound. They agree on
what these are bound to, the given variables apart. What initializers look at, and what stands for
calls, holds no texture and no pointer, other than to what initializers look at. -/
structure Apart (p : Program) (settled : Layouts) (anew : List VarDecl) (m m' : Machine) :
    Prop where
  layouts : settled.Coherent p.nodes m.layouts
  layouts' : settled.Coherent p.nodes m'.layouts
  vars : ∀ v ∈ m.moduleVars, v ∈ p.values .var
  vars' : m'.moduleVars = m.moduleVars
  callDepth : m'.callDepth = m.callDepth
  callResults : m'.callResults = m.callResults
  pending : ∀ r ∈ m.callResults, r.2.Among p.Consults
  tables : ∃ t t', m.scopes = .alone t ∧ m'.scopes = .alone t' ∧ (t.map Prod.fst).Nodup ∧
    t'.map Prod.fst = t.map Prod.fst ∧
    (∀ n, n ∉ anew.map VarDecl.name → t'.find? n = t.find? n) ∧
    ∀ n, p.Consults n → ∀ slot, t.find? n = some slot → slot.Among p.Consults

/-- What initializers of a sheltered program mention is none of the variables declared anew. -/
theorem Sheltered.within (h : p.Sheltered) {s : Shader} {l : Layouts}
    (hp : Shader.ofProgram p = .ok (s, l)) {v : VarDecl} (hv : v ∈ p.values .var) :
    ¬p.Consults v.name ∧ ∀ e ∈ v.value, ∀ x ∈ e.mentions, x.Within s p.Consults := by
  refine ⟨?_, fun e he x hx => ?_⟩
  · rintro ⟨w, hw, e, he, mentioned⟩
    exact h w hw e he _ mentioned v hv rfl
  · cases x with
    | variable_ name => exact ⟨v, hv, e, he, hx⟩
    | call name =>
      refine Option.eq_none_iff_forall_ne_some.2 fun f hf => ?_
      obtain ⟨hmem, hname⟩ := Shader.mem_of_function? hp hf
      exact h v hv e he _ hx f hmem hname
    | _ => trivial

end Program

/-- What an earlier invocation left in the variables that are declared anew makes no difference to
how an invocation begins. From two states of a program that agree on the rest it begins in the same
scope, with the same scopes around it, the same depth of calls and nothing discarded. -/
theorem Exec.beginInvocation_isolated {source : String} {p : Program} {l : Layouts}
    (hsource : Program.ofSource source = .ok p) (hp : Shader.ofProgram p = .ok (s, l))
    (sheltered : p.Sheltered) {plan : DispatchPlan} {entry : String}
    (hentry : s.function? entry = some plan.entry) (index : Nat)
    (h : p.Apart l (m.anew plan index) m m') :
    EndAlike (fun n n' => n'.scopes = n.scopes ∧ n'.callDepth = n.callDepth ∧
      n'.discarded = n.discarded) (beginInvocation s plan index m) (beginInvocation s plan index m') := by
  have settled := Shader.settled_ofProgram hp
  have shader := Conduct.oblivious_admitsShader settled (LayoutM.typesApart_ofSource hsource) hp
  obtain ⟨t, t', ht, ht', distinct, keys, same, among⟩ := h.tables
  have consulted : ∀ n, p.Consults n → n ∉ (m.anew plan index).map VarDecl.name := by
    intro n hn hmem
    obtain ⟨v, hv, rfl⟩ := List.mem_map.1 hmem
    exact (sheltered.within hp (h.vars v (List.mem_filter.1 hv).1)).1 hn
  -- first the second state with the layouts of the first one
  let middle : Machine := { m' with layouts := m.layouts }
  have between : m.Between p.Consults ((m.anew plan index).map VarDecl.name) middle :=
    ⟨⟨rfl, h.callResults, h.pending, t, t', ht, ht', fun n hn => ⟨same n (consulted n hn), among n hn⟩⟩,
      h.callDepth, t, t', ht, ht', distinct, keys, same⟩
  have within := fun v hv => sheltered.within hp (h.vars v hv)
  have level := @level_beginInvocation _ _ _ middle _ _ within h.vars' between
  have twins : Machine.Twins l p.nodes middle m' := by
    refine ⟨rfl, h.layouts, h.layouts', Program.typed_of_values fun v hv => ?_⟩
    exact h.vars v (h.vars' ▸ hv)
  have ended := oblivious_beginInvocation shader hentry index middle m' twins
  obtain ⟨f, hf, hf'⟩ | ⟨scope, n, k, hn, hk, same⟩ := level
  · obtain ⟨f', hm, hm'⟩ | ⟨scope, k, k', hm, -⟩ := ended
    · rw [hf'] at hm
      cases hm
      exact .inl ⟨f, hf, hm'⟩
    · rw [hf'] at hm
      cases hm
  · obtain ⟨f', hm, -⟩ | ⟨scope', k₁, n', hm, hm', twins'⟩ := ended
    · rw [hk] at hm
      cases hm
    · rw [hk] at hm
      cases hm
      refine .inr ⟨scope, n, n', hn, hm', ?_⟩
      rw [twins'.same]
      exact ⟨same.scopes, same.callDepth, same.discarded⟩

/-! ### A variable that is written -/

/-- An entry point over two workgroups of one invocation each. -/
def DispatchPlan.pair (f : Function) : DispatchPlan := ⟨f, ⟨2, 1, 1⟩, ⟨1, 1, 1⟩⟩

/-- A state between invocations in which the root binds numbers. -/
def Machine.holding (p : Program) (l : Layouts) (numbers : Table Int32) : Machine where
  layouts := l
  scopes := .alone (numbers.map fun b => (b.1, .value (.i32 b.2)))
  moduleVars := p.values .var

theorem Machine.anew_pair {p : Program} {l : Layouts} (numbers : Table Int32) (f : Function) :
    (holding p l numbers).anew (.pair f) 1 = p.values .var :=
  List.filter_eq_self.2 fun _ _ => by
    simp [DispatchPlan.invocation, DispatchPlan.invocationsPerWorkgroup, DispatchPlan.pair,
      Extent.volume, DispatchPlan.countLimit]

/-- Numbers are no pointers. -/
theorem Slot.among_of_numbers {numbers : Table Int32} {n : String} {slot : Slot}
    (h : Table.find? (numbers.map fun b => (b.1, Slot.value (.i32 b.2))) n = some slot) :
    slot.Among names := by
  obtain ⟨before, after, split, -⟩ := List.lookup_eq_some_iff.1 h
  have found : (n, slot) ∈ numbers.map fun b => (b.1, Slot.value (.i32 b.2)) :=
    split ▸ List.mem_append_right _ List.mem_cons_self
  obtain ⟨b, -, hb⟩ := List.mem_map.1 found
  cases hb
  exact Value.among_of_plain fun _ => Value.rename_i32 _

/-- The variables of a sheltered program that declares a function `f` and lays out its types. -/
def Program.sheltered? (source : String) : Except Fault (Option (List String)) := do
  let p ← ofSource source
  let (s, l) ← Shader.ofProgram p
  return if p.Sheltered ∧ p.LaysOut l ∧ (s.function? "f").isSome then
    some ((p.values .var).map VarDecl.name) else none

theorem Program.of_sheltered? {source : String} {vars : List String}
    (h : sheltered? source = .ok (some vars)) : ∃ p s l f, ofSource source = .ok p ∧
      Shader.ofProgram p = .ok (s, l) ∧ p.Sheltered ∧ p.LaysOut l ∧ s.function? "f" = some f ∧
      (p.values .var).map VarDecl.name = vars := by
  obtain ⟨p, hsource, h⟩ := Fault.bind_ok h
  obtain ⟨⟨s, l⟩, hp, h⟩ := Fault.bind_ok h
  have found := Except.ok.inj h
  split at found
  · rename_i good
    obtain ⟨f, hf⟩ := Option.isSome_iff_exists.1 good.2.2
    exact ⟨p, s, l, f, hsource, hp, good.1, good.2.1, hf, Option.some.inj found⟩
  · cases found

/-- The second invocation begins whether the first has written the variable or not, and alike. -/
theorem Exec.beginInvocation_isolated_written : ∃ p s l f scope n n',
    Program.ofSource "const c = 3; var<private> v: i32 = c; fn f() \x7b v = 7; \x7d" = .ok p ∧
      Shader.ofProgram p = .ok (s, l) ∧ p.Sheltered ∧ s.function? "f" = some f ∧
      let untouched := Machine.holding p l [("c", 3), ("v", 3)]
      let written := Machine.holding p l [("c", 3), ("v", 7)]
      p.Apart l (untouched.anew (.pair f) 1) untouched written ∧
        beginInvocation s (.pair f) 1 untouched = .ok (scope, n) ∧
        beginInvocation s (.pair f) 1 written = .ok (scope, n') ∧
        n'.scopes = n.scopes ∧ n'.callDepth = n.callDepth ∧ n'.discarded = n.discarded := by
  have found : Program.sheltered? "const c = 3; var<private> v: i32 = c; fn f() \x7b v = 7; \x7d" =
      .ok (some ["v"]) := by decide +kernel
  obtain ⟨p, s, l, f, hsource, hp, sheltered, hl, hf, vars⟩ := Program.of_sheltered? found
  have apart : p.Apart l ((Machine.holding p l [("c", 3), ("v", 3)]).anew (.pair f) 1)
      (Machine.holding p l [("c", 3), ("v", 3)]) (Machine.holding p l [("c", 3), ("v", 7)]) := by
    refine ⟨LayoutM.coherent_self _ _, LayoutM.coherent_self _ _, fun _ hv => hv, rfl, rfl, rfl, nofun,
      _, _, rfl, rfl, by decide, rfl, fun n hn => ?_, fun n _ slot => Slot.among_of_numbers⟩
    rw [Machine.anew_pair, vars, List.mem_singleton] at hn
    simp [Table.find?, List.lookup_cons, beq_eq_false_iff_ne.2 hn]
  have prepared : (Machine.holding p l [("c", 3), ("v", 3)]).Prepared l p.nodes :=
    ⟨apart.layouts, Program.typed_of_values apart.vars⟩
  obtain ⟨_, _, hbegun⟩ :=
    @beginInvocation_of_prepared _ _ _ _ _ hsource hp hl (.pair f) _ hf 1 prepared
  have alike := @beginInvocation_isolated _ _ _ _ _ _ hsource hp sheltered (.pair f) _ hf 1 apart
  obtain ⟨e, he, -⟩ | ⟨scope, n, n', hn, hn', same⟩ := alike
  · rw [hbegun] at he
    cases he
  · exact ⟨p, s, l, f, scope, n, n', hsource, hp, sheltered, hf, apart, hn, hn', same⟩

/-! ### A constant that points to a variable -/

/-- The variable `w` starts from what the constant `p` points to, and is declared before that. -/
def pointingSource : String :=
  "var<private> w: i32 = *p; var<private> v: i32 = 0; const p = &v; fn f() \x7b v = 5; \x7d"

/-- The number that a name of the module is bound to. -/
def Machine.number? (m : Machine) (name : String) : Option Int32 :=
  match m.scopes.findIn? ScopeArena.root name with
  | some (.value (.i32 n)) => some n
  | _ => none

/-- Begins the second invocation with `v` as it is and with 5 in `v`. Gives the variables declared
anew and what `w` is either time. -/
def Exec.pointing : Except Fault (Option (List String × Option Int32 × Option Int32)) := do
  let p ← Program.ofSource pointingSource
  let (s, l) ← Shader.ofProgram p
  let (_, m) ← start s [] { layouts := l }
  match s.function? "f" with
  | none => return none
  | some f =>
    let (_, n) ← beginInvocation s (.pair f) 1 m
    let (_, n') ← beginInvocation s (.pair f) 1 (m.bind ScopeArena.root "v" (.value (.i32 5)))
    return if p.Sheltered then
      some ((m.anew (.pair f) 1).map VarDecl.name, n.number? "w", n'.number? "w") else none

/-- Two states that differ in a variable declared anew, from which an invocation begins in different
scopes: a constant that an initializer mentions points to the variable. -/
theorem Exec.beginInvocation_pointing : ∃ p s l f m scope scope' n n',
    Program.ofSource pointingSource = .ok p ∧ Shader.ofProgram p = .ok (s, l) ∧ p.Sheltered ∧
      s.function? "f" = some f ∧ start s [] { layouts := l } = .ok ((), m) ∧
      (m.anew (.pair f) 1).map VarDecl.name = ["w", "v"] ∧
      beginInvocation s (.pair f) 1 m = .ok (scope, n) ∧
      beginInvocation s (.pair f) 1 (m.bind ScopeArena.root "v" (.value (.i32 5))) = .ok (scope', n') ∧
      n.scopes ≠ n'.scopes := by
  have begun : pointing = .ok (some (["w", "v"], some 0, some 5)) := by decide +kernel
  obtain ⟨p, hsource, h⟩ := Fault.bind_ok begun
  obtain ⟨⟨s, l⟩, hp, h⟩ := Fault.bind_ok h
  obtain ⟨⟨_, m⟩, hstart, h⟩ := Fault.bind_ok h
  cases hf : s.function? "f" with
  | none =>
    simp only [hf] at h
    cases h
  | some f =>
    simp only [hf] at h
    obtain ⟨⟨scope, n⟩, hn, h⟩ := Fault.bind_ok h
    obtain ⟨⟨scope', n'⟩, hn', h⟩ := Fault.bind_ok h
    have found := Except.ok.inj h
    split at found
    · rename_i sheltered
      simp only [Option.some.injEq, Prod.mk.injEq] at found
      obtain ⟨anew, first, second⟩ := found
      refine ⟨p, s, l, f, m, scope, scope', n, n', hsource, hp, sheltered, hf, hstart, anew, hn, hn', ?_⟩
      intro same
      rw [Machine.number?, same] at first
      have := first.symm.trans second
      cases this
    · cases found

end Wgsl
