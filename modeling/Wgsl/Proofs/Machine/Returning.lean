import Wgsl.Proofs.Machine.History

/-! # Runs that return

Of the ways to fail only one is left to a shader that runs: to lay out a type, a constant may have to
be found, and a `clamp` of constants over an empty range has no value. Where every type of a program
can be laid out, whatever its shader runs returns.

* `Program.LaysOut`: every type of a program can be laid out.
* `Machine.Prepared`: the state of a machine that a run may start from.
* `Exec.Returns`: computations that return from there.
* `Conduct.returning`: what a shader runs returns.
* `Exec.returns_runInvocations`: so does a run through any number of invocations.
-/

namespace Wgsl
set_option autoImplicit false

variable {α β : Type} {settled : Layouts} {nodes : List Node} {m : Machine}

/-- A type can be laid out once all names are settled. -/
def Node.LaidOut (settled : Layouts) : Node → Prop
  | .type t => ((LayoutM.typeInfo t).run settled).isOk = true
  | _ => True

instance (settled : Layouts) : ∀ n : Node, Decidable (n.LaidOut settled)
  | .type t => inferInstanceAs (Decidable (((LayoutM.typeInfo t).run settled).isOk = true))
  | .expr _ => inferInstanceAs (Decidable True)

/-- Every type of the program can be laid out. -/
def Program.LaysOut (p : Program) (settled : Layouts) : Prop := ∀ n ∈ p.nodes, n.LaidOut settled

instance (p : Program) (settled : Layouts) : Decidable (p.LaysOut settled) :=
  inferInstanceAs (Decidable (∀ n ∈ p.nodes, n.LaidOut settled))

/-- Layouts answer as the settled ones do, and variables of the module have types of the program. -/
structure Machine.Prepared (settled : Layouts) (nodes : List Node) (m : Machine) : Prop where
  coherent : settled.Coherent nodes m.layouts
  typed : m.Typed fun t => t.nodes ⊆ nodes

theorem Program.mem_declarations_of_values {p : Program} {kind : GlobalKind} {v : VarDecl}
    (h : v ∈ p.values kind) : .value kind v ∈ p.declarations := by
  obtain ⟨d, hd, found⟩ := List.mem_filterMap.1 h
  split at found
  · split at found
    · cases found
      rename_i hkind
      exact hkind ▸ hd
    · cases found
  · cases found

/-- What variables of a program mention has types of the program. -/
theorem Program.typed_of_values {p : Program}
    (h : ∀ v ∈ m.moduleVars, v ∈ p.values .var) : m.Typed fun t => t.nodes ⊆ p.nodes := by
  intro v hv x hx
  have inside := p.nodes_subset (mem_declarations_of_values (h v hv))
  cases x with
  | type t => exact List.Subset.trans (v.spelled t hx) inside
  | _ => trivial

theorem Machine.Prepared.twins (h : m.Prepared settled nodes) : m.Twins settled nodes m :=
  ⟨rfl, h.coherent, h.coherent, h.typed⟩

/-- From a machine that is ready the computation returns, and leaves one that is ready. -/
def Exec.Returns (settled : Layouts) (nodes : List Node) (x : Exec α) : Prop :=
  ∀ m, m.Prepared settled nodes → ∃ a m', x m = .ok (a, m') ∧ m'.Prepared settled nodes

namespace Exec

theorem returns_pure (a : α) : (pure a : Exec α).Returns settled nodes :=
  fun m h => ⟨a, m, rfl, h⟩

theorem returns_bind {x : Exec α} {f : α → Exec β} (hx : x.Returns settled nodes)
    (hf : ∀ a, (f a).Returns settled nodes) : (x >>= f).Returns settled nodes := by
  intro m h
  obtain ⟨a, m₁, ha, h₁⟩ := hx m h
  rw [bind_of_ok ha]
  exact hf a m₁ h₁

/-- A change that neither touches layouts nor brings in new types returns. -/
theorem returns_modifyGet {f : Machine → α × Machine}
    (hf : ∀ m, m.Prepared settled nodes → (f m).2.Prepared settled nodes) :
    (modifyGet f : Exec α).Returns settled nodes :=
  fun m h => ⟨(f m).1, (f m).2, rfl, hf m h⟩

/-- An oblivious computation that does not fail leaves the machine ready. -/
theorem Oblivious.returns {x : Exec α} (hx : x.Oblivious settled nodes)
    (h : ∀ m, m.Prepared settled nodes → ∃ r, x m = .ok r) : x.Returns settled nodes := by
  intro m hm
  obtain ⟨⟨a, m₁⟩, hr⟩ := h m hm
  obtain ⟨f, hf, -⟩ | ⟨_, n, _, hn, -, twins⟩ := hx m m hm.twins
  · rw [hr] at hf
    cases hf
  · rw [hr] at hn
    cases hn
    exact ⟨a, m₁, hr, twins.coherent, twins.typed⟩

theorem returns_nested {x : Exec α} (hx : x.Returns settled nodes) :
    (nested x).Returns settled nodes :=
  returns_bind (returns_modifyGet fun _ h => ⟨h.coherent, h.typed⟩) fun _ =>
    returns_bind hx fun a =>
      returns_bind (returns_modifyGet fun _ h => ⟨h.coherent, h.typed⟩) fun _ => returns_pure a

theorem returns_inScope {parent : ScopeId} {x : ScopeId → Exec α}
    (hx : ∀ scope, (x scope).Returns settled nodes) : (inScope parent x).Returns settled nodes :=
  returns_bind (returns_modifyGet fun _ h => ⟨h.coherent, h.typed⟩) fun scope =>
    returns_bind (hx scope) fun a =>
      returns_bind (returns_modifyGet fun _ h => ⟨h.coherent, h.typed⟩) fun _ => returns_pure a

/-- Whatever has been laid out before, a type that can be laid out is. -/
theorem returns_typeInfo (hs : settled.Settled) (hapart : LayoutM.TypesApart nodes) {t : TypeExpr}
    (ht : t.nodes ⊆ nodes) (hl : (Node.type t).LaidOut settled) :
    (Exec.typeInfo t).Returns settled nodes := by
  have agrees := LayoutM.agrees_typeInfo hs hapart fun _ hn => ht hn
  refine (oblivious_layout agrees).returns fun m hm => ?_
  obtain ⟨f, hf, -⟩ | ⟨info, _, l, -, hl, -⟩ :=
    agrees settled m.layouts (LayoutM.coherent_self settled nodes) hm.coherent
  · rw [Node.LaidOut, hf] at hl
    cases hl
  · refine ⟨(info, { m with layouts := l }), ?_⟩
    rw [layout, hl]
    rfl

theorem returns_structInfo (hs : settled.Settled) (name : String) :
    (layout (LayoutM.structInfo name)).Returns settled nodes := by
  refine (oblivious_layout (LayoutM.agrees_structInfo hs name)).returns fun m hm => ?_
  refine ⟨(settled.byStruct.find? name, m), ?_⟩
  rw [layout, LayoutM.structInfo, LayoutM.run_bind_ok (LayoutM.run_nesting hm.coherent),
    LayoutM.structInfoWith_settled hs name hm.coherent]
  rfl

end Exec

/-! ## What a shader runs -/

/-- Computations that lay out types of the program only, all of which can be laid out, return. -/
def Conduct.returning (hs : settled.Settled) (hapart : LayoutM.TypesApart nodes)
    (hl : ∀ n ∈ nodes, n.LaidOut settled) : Conduct where
  obeys _ x := x.Returns settled nodes
  types t := t.nodes ⊆ nodes
  of_quiet h := h
  obeys_pure := Exec.returns_pure
  obeys_bind := Exec.returns_bind
  obeys_get _ hf m h := hf m h.typed m h
  obeys_change hf := Exec.returns_modifyGet fun m h => by
    refine ⟨?_, hf.typed m h.typed⟩
    rw [hf.layouts m m.layouts]
    exact h.coherent
  obeys_typeInfo ht := Exec.returns_typeInfo hs hapart ht (hl _ (ht (TypeExpr.mem_nodes _)))
  obeys_structInfo := Exec.returns_structInfo hs
  obeys_writePlace q v := (Exec.oblivious_writePlace q v).returns fun _ _ => ⟨_, rfl⟩
  obeys_nested := Exec.returns_nested
  obeys_inScope := Exec.returns_inScope
  obeys_bindName _ _ _ := Exec.returns_modifyGet fun _ h => ⟨h.coherent, h.typed⟩

/-- What a shader of such a program runs returns. -/
theorem Conduct.returning_admitsShader {p : Program} {s : Shader} {l : Layouts} (hs : settled.Settled)
    (hapart : LayoutM.TypesApart p.nodes) (hl : p.LaysOut settled)
    (hp : Shader.ofProgram p = .ok (s, l)) : (returning hs hapart hl).AdmitsShader s :=
  have same := oblivious_admitsShader hs hapart hp
  ⟨same.functions, same.attributes, same.declarations, same.members⟩

section

variable {source : String} {p : Program} {s : Shader} {l : Layouts}
  (hsource : Program.ofSource source = .ok p) (hp : Shader.ofProgram p = .ok (s, l))
  (hl : p.LaysOut l) {plan : DispatchPlan} {entry : String}
  (hentry : s.function? entry = some plan.entry)

include hsource hp hl hentry

/-- A run through any number of invocations returns. -/
theorem Exec.returns_runInvocations (count index : Nat) :
    (runInvocations s plan count index).Returns l p.nodes :=
  Conduct.inside_runInvocations (Conduct.returning_admitsShader (Shader.settled_ofProgram hp)
    (LayoutM.typesApart_ofSource hsource) hl hp) hentry count index

/-- So does beginning an invocation, with which such a run starts. -/
theorem Exec.beginInvocation_of_prepared (index : Nat) (hm : m.Prepared l p.nodes) :
    ∃ scope m', beginInvocation s plan index m = .ok (scope, m') := by
  obtain ⟨⟨⟩, m₁, hrun, -⟩ := returns_runInvocations hsource hp hl hentry 1 index m hm
  obtain ⟨⟨⟩, m₂, hfirst, -⟩ := bind_ok hrun
  obtain ⟨scope, m', hbegun, -⟩ := bind_ok hfirst
  exact ⟨scope, m', hbegun⟩

end

end Wgsl
