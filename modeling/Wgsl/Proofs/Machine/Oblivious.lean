import Wgsl.Proofs.Layout.Coherent
import Wgsl.Proofs.Machine.Conduct
import Wgsl.Proofs.Reflect.Resources
import Wgsl.Proofs.Tree.Mentioned

/-! # What layouts remember is not seen

Two machines that differ only in the layouts they remember cannot be told apart by anything that a
shader runs.

* `Machine.Twins`: two such machines.
* `Exec.Oblivious`: computations that end alike on twins.
* `Conduct.oblivious`, `Conduct.oblivious_admitsShader`: what a shader runs is oblivious.
-/

namespace Wgsl
set_option autoImplicit false

/-- Two machines that differ in the layouts they remember at most. What either remembers is what the
settled layouts would give. -/
structure Machine.Twins (settled : Layouts) (nodes : List Node) (m m' : Machine) : Prop where
  same : m' = { m with layouts := m'.layouts }
  coherent : settled.Coherent nodes m.layouts
  coherent' : settled.Coherent nodes m'.layouts
  typed : m.Typed fun t => t.nodes ⊆ nodes

/-- Two computations ended alike: with the same fault, or with the same answer and twins. -/
def Exec.SameEnd {α : Type} (settled : Layouts) (nodes : List Node)
    (end_ end_' : Except Fault (α × Machine)) : Prop :=
  (∃ f, end_ = .error f ∧ end_' = .error f) ∨
  ∃ a m m', end_ = .ok (a, m) ∧ end_' = .ok (a, m') ∧ Machine.Twins settled nodes m m'

/-- On twins the computation ends alike. -/
def Exec.Oblivious {α : Type} (settled : Layouts) (nodes : List Node) (x : Exec α) : Prop :=
  ∀ m m', Machine.Twins settled nodes m m' → SameEnd settled nodes (x m) (x m')

variable {α β : Type} {settled : Layouts} {nodes : List Node}

namespace Machine

/-- Writing to a place does not look at layouts and touches scopes and memory only. -/
theorem writePlace_layouts (q : Place) (v : Value) (m : Machine) : ∃ outcome scopes memory, ∀ l,
    (writePlace q v).apply { m with layouts := l } =
      (outcome, { m with layouts := l, scopes, memory }) := by
  obtain ⟨root, path⟩ := q
  let written (view : BufferView) := (Memory.writePath view path v).apply m.memory
  cases root with
  | buffer view => exact ⟨(written view).1, m.scopes, (written view).2, fun _ => rfl⟩
  | variable_ scope name =>
    cases h : m.scopes.findIn? scope name with
    | none =>
      exact ⟨.error (unknown name 0), m.scopes, m.memory,
        fun l => writePlace_none (m := { m with layouts := l }) h⟩
    | some slot =>
      cases slot with
      | value old =>
        let assigned := (Value.assignPath path v).apply old
        exact ⟨assigned.1, m.scopes.insert scope name (.value assigned.2), m.memory,
          fun l => writePlace_value (m := { m with layouts := l }) h⟩
      | view view =>
        exact ⟨(written view).1, m.scopes, (written view).2,
          fun l => writePlace_view (m := { m with layouts := l }) h⟩

end Machine

namespace Exec

theorem SameEnd.ok {a : α} {m m' : Machine} (h : Machine.Twins settled nodes m m') :
    SameEnd settled nodes (.ok (a, m)) (.ok (a, m')) := Or.inr ⟨a, m, m', rfl, rfl, h⟩

theorem SameEnd.bind {r r' : Except Fault (α × Machine)} {f : α → Exec β}
    (h : SameEnd settled nodes r r') (hf : ∀ a, (f a).Oblivious settled nodes) :
    SameEnd settled nodes (r >>= fun e => f e.1 e.2) (r' >>= fun e => f e.1 e.2) := by
  obtain ⟨e, rfl, rfl⟩ | ⟨a, m, m', rfl, rfl, ht⟩ := h
  · exact Or.inl ⟨e, rfl, rfl⟩
  · exact hf a m m' ht

theorem oblivious_pure (a : α) : (pure a : Exec α).Oblivious settled nodes :=
  fun _ _ h => .ok h

theorem oblivious_bind {x : Exec α} {f : α → Exec β} (hx : x.Oblivious settled nodes)
    (hf : ∀ a, (f a).Oblivious settled nodes) : (x >>= f).Oblivious settled nodes :=
  fun m m' h => (hx m m' h).bind hf

theorem oblivious_get {f : Machine → Exec α} (hl : ∀ m l, f { m with layouts := l } = f m)
    (hf : ∀ m, m.Typed (fun t => t.nodes ⊆ nodes) → (f m).Oblivious settled nodes) :
    (get >>= f).Oblivious settled nodes := by
  intro m m' h
  have read : f m' = f m := by rw [h.same, hl]
  change SameEnd settled nodes (f m m) (f m' m')
  rw [read]
  exact hf m h.typed m m' h

/-- A change that does not look at layouts. -/
theorem oblivious_modifyGet {f : Machine → α × Machine}
    (hl : ∀ m l, f { m with layouts := l } = ((f m).1, { (f m).2 with layouts := l }))
    (hv : ∀ m, m.Typed (fun t => t.nodes ⊆ nodes) → (f m).2.Typed fun t => t.nodes ⊆ nodes) :
    (modifyGet f : Exec α).Oblivious settled nodes := by
  intro m m' h
  have own : f m = ((f m).1, { (f m).2 with layouts := m.layouts }) := hl m m.layouts
  have other : f m' = ((f m).1, { (f m).2 with layouts := m'.layouts }) := by
    rw [h.same]
    exact hl m m'.layouts
  refine Or.inr ⟨(f m).1, _, _, congrArg Except.ok own, congrArg Except.ok other, ?_⟩
  exact ⟨rfl, h.coherent, h.coherent', hv m h.typed⟩

theorem oblivious_writePlace (q : Place) (v : Value) :
    (Eval.writePlace q v).run.Oblivious settled nodes := by
  intro m m' h
  obtain ⟨outcome, scopes, memory, ended⟩ := Machine.writePlace_layouts q v m
  have other := (congrArg (Machine.writePlace q v).apply h.same).trans (ended m'.layouts)
  refine Or.inr ⟨outcome, _, _, congrArg Except.ok (ended m.layouts), congrArg Except.ok other, ?_⟩
  exact ⟨rfl, h.coherent, h.coherent', h.typed⟩

theorem oblivious_layout {x : LayoutM α} (hx : LayoutM.Agrees settled nodes x) :
    (layout x).Oblivious settled nodes := by
  intro m m' h
  obtain ⟨e, he, he'⟩ | ⟨a, l, l', ha, ha', hl, hl'⟩ :=
    hx m.layouts m'.layouts h.coherent h.coherent'
  · refine Or.inl ⟨e, ?_, ?_⟩
    · rw [layout, he]
      rfl
    · rw [layout, he']
      rfl
  · refine Or.inr ⟨a, { m with layouts := l }, { m' with layouts := l' }, ?_, ?_, ?_⟩
    · rw [layout, ha]
      rfl
    · rw [layout, ha']
      rfl
    · rw [h.same]
      exact ⟨rfl, hl, hl', h.typed⟩

theorem oblivious_nested {x : Exec α} (hx : x.Oblivious settled nodes) :
    (nested x).Oblivious settled nodes :=
  oblivious_bind (oblivious_modifyGet (fun _ _ => rfl) fun _ h => h) fun _ =>
    oblivious_bind hx fun a =>
      oblivious_bind (oblivious_modifyGet (fun _ _ => rfl) fun _ h => h) fun _ => oblivious_pure a

theorem oblivious_inScope {parent : ScopeId} {x : ScopeId → Exec α}
    (hx : ∀ scope, (x scope).Oblivious settled nodes) :
    (inScope parent x).Oblivious settled nodes :=
  oblivious_bind (oblivious_modifyGet (fun _ _ => rfl) fun _ h => h) fun scope =>
    oblivious_bind (hx scope) fun a =>
      oblivious_bind (oblivious_modifyGet (fun _ _ => rfl) fun _ h => h) fun _ => oblivious_pure a

end Exec

/-! ## What a shader runs -/

/-- Computations that lay out types of the program only are oblivious. -/
def Conduct.oblivious (hs : settled.Settled) (hapart : LayoutM.TypesApart nodes) : Conduct where
  obeys _ x := x.Oblivious settled nodes
  types t := t.nodes ⊆ nodes
  of_quiet h := h
  obeys_pure := Exec.oblivious_pure
  obeys_bind := Exec.oblivious_bind
  obeys_get := Exec.oblivious_get
  obeys_change hf := Exec.oblivious_modifyGet hf.layouts hf.typed
  obeys_typeInfo ht := Exec.oblivious_layout (LayoutM.agrees_typeInfo hs hapart fun _ hn => ht hn)
  obeys_structInfo name := Exec.oblivious_layout (LayoutM.agrees_structInfo hs name)
  obeys_writePlace q v := Exec.oblivious_writePlace q v
  obeys_nested := Exec.oblivious_nested
  obeys_inScope := Exec.oblivious_inScope
  obeys_bindName _ _ _ := Exec.oblivious_modifyGet (fun _ _ => rfl) fun _ h => h

namespace Conduct

variable {hs : settled.Settled} {hapart : LayoutM.TypesApart nodes}

theorem oblivious_admits {ns : List Node} {ms : List Mention} (h : Spelled ns ms)
    (hsub : ns ⊆ nodes) : (oblivious hs hapart).Admits ms := by
  intro x hx
  cases x with
  | type t => exact List.Subset.trans (h t hx) hsub
  | _ => trivial

/-- A shader lays out types of its program only. -/
theorem oblivious_admitsShader {p : Program} {s : Shader} {l : Layouts} (hs : settled.Settled)
    (hapart : LayoutM.TypesApart p.nodes) (hp : Shader.ofProgram p = .ok (s, l)) :
    (oblivious hs hapart).AdmitsShader s := by
  obtain ⟨hprogram, -⟩ := Shader.ofProgram_ok hp
  have known : ∀ {name f}, s.function? name = some f → f.nodes ⊆ p.nodes := fun hf =>
    Program.nodes_subset_of_function (Shader.mem_of_function? hp hf).1
  refine ⟨fun name f hf => oblivious_admits f.spelled (known hf), fun name f a e hf ha he => ?_,
    fun d hd => ?_, fun d hd m hm => ?_⟩
  · have inner : Attribute.listNodes f.attributes ⊆ f.nodes := fun n hn =>
      List.mem_append_left _ (List.mem_append_right _ hn)
    exact oblivious_admits e.spelled fun n hn =>
      known hf (inner (Attribute.nodes_subset ha he hn))
  · rw [hprogram] at hd
    have inside := Program.nodes_subset hd
    cases d with
    | value kind v => exact oblivious_admits v.spelled inside
    | constAssert e => exact oblivious_admits e.spelled inside
    | _ => exact nofun
  · rw [hprogram] at hd
    refine List.Subset.trans (fun n hn => ?_) (Program.nodes_subset_of_struct hd)
    refine List.mem_append_left _ (List.mem_flatMap.2 ⟨m, hm, ?_⟩)
    exact List.mem_append_left _ hn

end Conduct

end Wgsl
