import Wgsl.Proofs.Layout.Settled
import Wgsl.Proofs.Machine.Module
import Wgsl.Proofs.Machine.Stack

/-! # What the machine holds

The machine holds the resources of the host in memory, with a note of where each came from. No
computation takes hold of anything or lets go of it: that is left to the beginning and the end of a
dispatch.

* `Conduct.inside_declarations`, `Conduct.eval_entryPoint`, `Conduct.inside_runInvocations`: the
  parts of a dispatch have every property that all computations have.
* `Machine.Lasting`, `Conduct.keeping`: what every step keeps, every computation keeps.
* `Exec.Retains`, `Conduct.retaining`: what is bound stays bound, and memory keeps its outline.
* `Conduct.carrying`: layouts forget nothing, and calls are made.
-/

namespace Wgsl
set_option autoImplicit false

/-! ## The parts of a dispatch -/

namespace Conduct

variable {C : Conduct} {s : Shader} (h : C.AdmitsShader s)

include h

theorem inside_declarations (config : Config) : C.inside ScopeArena.root
    (s.program.declarations.forM (Exec.declaration s config)) :=
  obeys_forM fun d hd => inside_declaration h (h.declarations d hd)

theorem eval_entryPoint (entry : String) :
    C.inside ScopeArena.root (Attempt.entryPoint s entry).run := by
  unfold Attempt.entryPoint
  cases hf : s.function? entry with
  | none => exact eval_throw _
  | some f =>
    refine eval_bind (eval_workgroupSize h hf) fun size => ?_
    split
    · exact eval_throw _
    · exact eval_pure _

variable {plan : DispatchPlan} {entry : String} (hentry : s.function? entry = some plan.entry)

include hentry

theorem inside_runInvocation (index : Nat) :
    C.inside ScopeArena.root (Exec.runInvocation s plan index) := by
  have admitted := h.functions entry plan.entry hentry
  have body : C.Admits (Stmt.listMentions plan.entry.body) := by
    simp only [Function.mentions, admits_append] at admitted
    exact admits_of_block admitted.2
  have slight : ∀ f : Machine → Machine, Machine.SlightChange C.types (fun m => (PUnit.unit, f m)) →
      C.inside ScopeArena.root (modify f : Exec PUnit) := fun f hf => obeys_modify hf
  rw [Exec.runInvocation_eq]
  refine C.obeys_bind (inside_resetVariables h _) fun _ => C.obeys_bind (slight _ ?_) fun _ =>
    C.obeys_bind (C.of_quiet (C.obeys_inScope fun scope => ?_)) fun _ => slight _ ?_
  · exact ⟨fun _ _ => rfl, fun _ => rfl, fun _ => rfl, fun _ => rfl, fun _ => rfl, fun _ h => h,
      fun _ h => h⟩
  · refine C.obeys_bind (obeys_forM fun b _ => C.obeys_bindName _ _ _) fun _ => ?_
    refine C.obeys_bind (obeys_forM fun arg ha => inside_bindArgument h admitted ha) fun _ => ?_
    exact C.obeys_bind (inside_stmts (answers_call h) _ _ body) fun _ => C.of_quiet (C.obeys_pure _)
  · exact ⟨fun _ _ => rfl, fun _ => rfl, fun _ => rfl, fun _ => rfl, fun _ => rfl, fun _ h => h,
      fun _ _ => rfl⟩

theorem inside_runInvocations (count index : Nat) :
    C.inside ScopeArena.root (Exec.runInvocations s plan count index) := by
  induction count generalizing index with
  | zero => exact C.of_quiet (C.obeys_pure _)
  | succ count ih => exact C.obeys_bind (inside_runInvocation h hentry index) fun _ => ih _

end Conduct

/-! ## What every step keeps -/

/-- A relation between an earlier machine and a later one that every primitive step keeps. -/
structure Machine.Lasting (R : Machine → Machine → Prop) : Prop where
  refl : ∀ m, R m m
  trans : ∀ {m m₁ m₂}, R m m₁ → R m₁ m₂ → R m m₂
  slight : ∀ {α : Type} {f : Machine → α × Machine}, SlightChange (fun _ => True) f → ∀ m, R m (f m).2
  layouts : ∀ m l, m.layouts.Extends l → R m { m with layouts := l }
  scopes : ∀ m scopes, R m { m with scopes }
  nested : ∀ {m m₁}, R { m with callDepth := m.callDepth + 1 } m₁ →
    R m { m₁ with callDepth := m₁.callDepth - 1 }

/-- Wherever the computation ends, the machine is related to the one at its beginning. -/
def Exec.Keeps {α : Type} (R : Machine → Machine → Prop) (x : Exec α) : Prop :=
  ∀ m a m₁, x m = .ok (a, m₁) → R m m₁

namespace Machine.Lasting

variable {R : Machine → Machine → Prop} {α β : Type} (h : Lasting R)

include h

theorem keeps_bind {x : Exec α} {f : α → Exec β} (hx : x.Keeps R) (hf : ∀ a, (f a).Keeps R) :
    (x >>= f).Keeps R := by
  intro m b m₂ hrun
  obtain ⟨a, m₁, h₁, h₂⟩ := Exec.bind_ok hrun
  exact h.trans (hx m a m₁ h₁) (hf a m₁ b m₂ h₂)

omit h in
theorem keeps_modifyGet {f : Machine → α × Machine} (hf : ∀ m, R m (f m).2) :
    (modifyGet f : Exec α).Keeps R := by
  intro m a m₁ hrun
  have ended : f m = (a, m₁) := Except.ok.inj hrun
  have kept := hf m
  rwa [ended] at kept

theorem keeps_layout {x : LayoutM α} (hx : LayoutM.Growing x) : (Exec.layout x).Keeps R := by
  intro m a m₁ hrun
  obtain ⟨l, hl, rfl⟩ := Exec.layout_ok hrun
  exact h.layouts m l (hx _ _ _ hl).toExtends

theorem keeps_nested {x : Exec α} (hx : x.Keeps R) : (Exec.nested x).Keeps R := by
  intro m a m₁ hrun
  obtain ⟨_, m₂, hentered, hrun⟩ := Exec.bind_ok hrun
  obtain ⟨b, m₃, hbody, hrun⟩ := Exec.bind_ok hrun
  obtain ⟨_, m₄, hleft, hrun⟩ := Exec.bind_ok hrun
  cases hentered
  cases hleft
  cases hrun
  exact h.nested (hx _ a m₃ hbody)

theorem keeps_inScope {parent : ScopeId} {x : ScopeId → Exec α} (hx : ∀ scope, (x scope).Keeps R) :
    (Exec.inScope parent x).Keeps R :=
  h.keeps_bind (keeps_modifyGet fun m => h.scopes m _) fun scope => h.keeps_bind (hx scope) fun _ =>
    h.keeps_bind (keeps_modifyGet fun m => h.scopes m _) fun _ => keeps_modifyGet fun m => h.refl m

theorem onMemory {c : Change Memory α} (hc : c.Fixes Memory.outline) (m : Machine) :
    R m ((Machine.onMemory c).apply m).2 :=
  h.slight (f := (Machine.onMemory c).apply) ⟨fun _ _ => rfl, fun _ => rfl, fun _ => rfl, fun _ => rfl,
    fun m => hc m.memory, fun _ h => h, fun _ h => h⟩ m

theorem writePlace (q : Place) (v : Value) (m : Machine) : R m ((Machine.writePlace q v).apply m).2 := by
  obtain ⟨root, path⟩ := q
  cases root with
  | buffer view => exact h.onMemory (Memory.fixes_writePath view path v) m
  | variable_ scope name =>
    cases hslot : m.scopes.findIn? scope name with
    | none =>
      rw [writePlace_none hslot]
      exact h.refl m
    | some slot =>
      cases slot with
      | value old =>
        rw [writePlace_value hslot]
        exact h.scopes m _
      | view view =>
        rw [writePlace_view hslot]
        exact h.onMemory (Memory.fixes_writePath view path v) m

end Machine.Lasting

/-- Every computation keeps what every step keeps. -/
def Conduct.keeping {R : Machine → Machine → Prop} (h : Machine.Lasting R) : Conduct where
  obeys _ x := x.Keeps R
  types _ := True
  of_quiet hx := hx
  obeys_pure a m b m₁ hrun := by
    cases hrun
    exact h.refl m
  obeys_bind := h.keeps_bind
  obeys_get _ hf m := hf m (fun _ _ x _ => x.typed_of_all fun _ => trivial) m
  obeys_change hf := Machine.Lasting.keeps_modifyGet (h.slight hf)
  obeys_typeInfo {t} _ := h.keeps_layout (LayoutM.growing_typeInfo t)
  obeys_structInfo name := h.keeps_layout (LayoutM.growing_structInfo name)
  obeys_writePlace q v := Machine.Lasting.keeps_modifyGet (h.writePlace q v)
  obeys_nested := h.keeps_nested
  obeys_inScope := h.keeps_inScope
  obeys_bindName _ _ _ := Machine.Lasting.keeps_modifyGet fun m => h.scopes m _

/-! ## Nothing is let go of -/

/-- The same resources are bound, and buffers and textures keep their lengths and sizes. -/
structure Machine.Retains (m m₁ : Machine) : Prop where
  bound : m₁.bound = m.bound
  outline : m₁.memory.outline = m.memory.outline

theorem Machine.retains_lasting : Lasting Retains where
  refl _ := ⟨rfl, rfl⟩
  trans h h' := ⟨h'.bound.trans h.bound, h'.outline.trans h.outline⟩
  slight hf m := ⟨hf.bound m, hf.outline m⟩
  layouts _ _ _ := ⟨rfl, rfl⟩
  scopes _ _ := ⟨rfl, rfl⟩
  nested h := ⟨h.bound, h.outline⟩

/-- Wherever the computation ends, what is held is retained. -/
def Exec.Retains {α : Type} (x : Exec α) : Prop := x.Keeps Machine.Retains

theorem Exec.retains_bind {α β : Type} {x : Exec α} {f : α → Exec β} (hx : x.Retains)
    (hf : ∀ a, (f a).Retains) : (x >>= f).Retains :=
  Machine.retains_lasting.keeps_bind hx hf

/-- Every computation leaves the machine what it holds. -/
def Conduct.retaining : Conduct := .keeping Machine.retains_lasting

/-! ## Nothing is put in the place of a call -/

/-- A slight change leaves the layouts alone. -/
theorem Machine.SlightChange.extends {α : Type} {types : TypeExpr → Prop} {f : Machine → α × Machine}
    (hf : SlightChange types f) (m : Machine) : m.layouts.Extends (f m).2.layouts := by
  have same : (f m).2.layouts = m.layouts := congrArg (·.2.layouts) (hf.layouts m m.layouts)
  exact same ▸ .refl _

/-- Layouts forget nothing, and no outcome of a call has been put in its place. -/
structure Machine.Carries (m m₁ : Machine) : Prop where
  layouts : m.layouts.Extends m₁.layouts
  callResults : m.callResults = [] → m₁.callResults = []

theorem Machine.carries_lasting : Lasting Carries where
  refl m := ⟨.refl m.layouts, id⟩
  trans h h' := ⟨h.layouts.trans h'.layouts, h'.callResults ∘ h.callResults⟩
  slight hf m := ⟨hf.extends m, hf.callResults m⟩
  layouts _ _ h := ⟨h, id⟩
  scopes m _ := ⟨.refl m.layouts, id⟩
  nested h := ⟨h.layouts, h.callResults⟩

/-- Every computation carries layouts and calls on. -/
def Conduct.carrying : Conduct := .keeping Machine.carries_lasting

end Wgsl
