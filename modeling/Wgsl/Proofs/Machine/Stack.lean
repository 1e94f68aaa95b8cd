import Wgsl.Proofs.Machine.Conduct
import Wgsl.Proofs.Scope.Lookup

/-! # The stack discipline of a run

Whatever a statement or an expression does, and however it ends, it closes the scopes that it opens.
Afterwards the same scopes are open, with the same parents, and they bind the same names; only a
declaration adds its name to the scope that it runs in.

* `Machine.KeepsStack`: what stays when names may be bound in one scope at most.
* `Conduct.stack`: every computation keeps the stack.
* `Eval.stack_discipline`: what statements and expressions leave behind.
-/

namespace Wgsl
set_option autoImplicit false

/-! ## Names bound after each operation -/

namespace ScopeArena

variable {α : Type} {a : ScopeArena α} {id k : Nat} {name other : String} {v : α}

/-- Whether a scope itself binds a name. -/
def Binds (a : ScopeArena α) (id : ScopeId) (name : String) : Prop :=
  (a.findIn? id name).isSome = true

theorem binds_insert : (a.insert id name v).Binds k other ↔
    a.Binds k other ∨ (k = id ∧ other = name ∧ id < a.depth) := by
  unfold Binds
  by_cases h : k = id ∧ other = name
  · obtain ⟨rfl, rfl⟩ := h
    by_cases hlive : k < a.depth
    · simp [findIn?_insert_self hlive, hlive]
    · have closed : (a.insert k other v).depth ≤ k := by
        rw [depth_insert]
        exact Nat.le_of_not_lt hlive
      rw [findIn?_of_depth_le closed, findIn?_of_depth_le (Nat.le_of_not_lt hlive)]
      simp [hlive]
  · rw [findIn?_insert_of_ne (by tauto)]
    exact ⟨Or.inl, fun hb => hb.resolve_right fun hb => h ⟨hb.1, hb.2.1⟩⟩

theorem binds_push {parent : ScopeId} : (a.push parent).1.Binds k name ↔ a.Binds k name := by
  unfold Binds
  rw [findIn?_push]

theorem binds_pop (h : k < id) : (a.pop id).Binds k name ↔ a.Binds k name := by
  unfold Binds
  rw [findIn?_pop h]

theorem not_binds_of_depth_le (h : a.depth ≤ id) : ¬a.Binds id name := by
  unfold Binds
  rw [findIn?_of_depth_le h]
  exact Bool.false_ne_true

end ScopeArena

namespace Machine

variable {m m₁ m₂ : Machine} {scope? : Option ScopeId} {scope parent : ScopeId}

/-- The same scopes are open, and names are bound in that scope at most. -/
structure KeepsStack (scope? : Option ScopeId) (m m₁ : Machine) : Prop where
  depth : m₁.scopes.depth = m.scopes.depth
  parents : ∀ id, m₁.scopes.parent? id = m.scopes.parent? id
  callDepth : m₁.callDepth = m.callDepth
  names : ∀ id name, some id ≠ scope? → (m₁.scopes.Binds id name ↔ m.scopes.Binds id name)

theorem KeepsStack.refl (scope? : Option ScopeId) (m : Machine) : KeepsStack scope? m m :=
  ⟨rfl, fun _ => rfl, rfl, fun _ _ _ => Iff.rfl⟩

theorem KeepsStack.of_eq (scope? : Option ScopeId) (hs : m₁.scopes = m.scopes)
    (hd : m₁.callDepth = m.callDepth) : KeepsStack scope? m m₁ where
  depth := by rw [hs]
  parents _ := by rw [hs]
  callDepth := hd
  names _ _ _ := by rw [hs]

theorem KeepsStack.trans (h : KeepsStack scope? m m₁) (h' : KeepsStack scope? m₁ m₂) :
    KeepsStack scope? m m₂ where
  depth := h'.depth.trans h.depth
  parents id := (h'.parents id).trans (h.parents id)
  callDepth := h'.callDepth.trans h.callDepth
  names id name hid := (h'.names id name hid).trans (h.names id name hid)

theorem KeepsStack.of_none (h : KeepsStack none m m₁) : KeepsStack scope? m m₁ where
  depth := h.depth
  parents := h.parents
  callDepth := h.callDepth
  names id name _ := h.names id name nofun

theorem keepsStack_bind (scope : ScopeId) (name : String) (slot : Slot) (m : Machine) :
    KeepsStack (some scope) m (m.bind scope name slot) where
  depth := ScopeArena.depth_insert
  parents _ := ScopeArena.parent?_insert
  callDepth := rfl
  names id other hid := by
    refine ScopeArena.binds_insert.trans (or_iff_left fun h => hid ?_)
    rw [h.1]

/-- A name that is bound already is no new name. -/
theorem keepsStack_rebind {name : String} (slot : Slot) (h : m.scopes.Binds scope name) :
    KeepsStack none m (m.bind scope name slot) where
  depth := ScopeArena.depth_insert
  parents _ := ScopeArena.parent?_insert
  callDepth := rfl
  names id other _ := by
    refine ScopeArena.binds_insert.trans (or_iff_left_of_imp fun hb => ?_)
    obtain ⟨rfl, rfl, -⟩ := hb
    exact h

/-- Closing a scope undoes its opening, whatever was bound in it meanwhile. -/
theorem KeepsStack.popped (hopen : 0 < m.scopes.depth)
    (h : KeepsStack (some m.scopes.depth) (m.pushed parent) m₁) :
    KeepsStack none m (m₁.popped m.scopes.depth) := by
  have live : m.scopes.depth < m₁.scopes.depth := by
    rw [h.depth]
    exact ScopeArena.depth_push ▸ Nat.lt_succ_self _
  have depth : (m₁.scopes.pop m.scopes.depth).depth = m.scopes.depth :=
    ScopeArena.depth_pop hopen live
  refine ⟨depth, fun id => ?_, h.callDepth, fun id name _ => ?_⟩
  · by_cases hid : id < m.scopes.depth
    · exact (ScopeArena.parent?_pop hid).trans
        ((h.parents id).trans (ScopeArena.parent?_push_of_ne (Nat.ne_of_lt hid)))
    · have closed := Nat.le_of_not_lt hid
      exact (ScopeArena.parent?_of_depth_le (depth.trans_le closed)).trans
        (ScopeArena.parent?_of_depth_le closed).symm
  · by_cases hid : id < m.scopes.depth
    · have named := h.names id name fun e => Nat.ne_of_lt hid (Option.some.inj e)
      unfold ScopeArena.Binds at named ⊢
      rw [show (m.pushed parent).scopes = (m.scopes.push parent).1 from rfl,
        ScopeArena.findIn?_push] at named
      rw [show (m₁.popped m.scopes.depth).scopes = m₁.scopes.pop m.scopes.depth from rfl,
        ScopeArena.findIn?_pop hid, named]
    · have closed := Nat.le_of_not_lt hid
      exact iff_of_false (ScopeArena.not_binds_of_depth_le (depth.trans_le closed))
        (ScopeArena.not_binds_of_depth_le closed)

theorem keepsStack_writePlace (q : Place) (v : Value) (m : Machine) :
    KeepsStack none m ((writePlace q v).apply m).2 := by
  obtain ⟨root, path⟩ := q
  cases root with
  | buffer view => exact KeepsStack.of_eq none rfl rfl
  | variable_ scope name =>
    cases h : m.scopes.findIn? scope name with
    | none =>
      rw [writePlace_none h]
      exact KeepsStack.refl none m
    | some slot =>
      cases slot with
      | value old =>
        rw [writePlace_value h]
        exact keepsStack_rebind _ (Option.isSome_of_eq_some h)
      | view view =>
        rw [writePlace_view h]
        exact KeepsStack.of_eq none rfl rfl

end Machine

/-! ## Every computation keeps the stack -/

open Machine (KeepsStack)

/-- The computation keeps the stack wherever it ends. -/
def Exec.KeepsStack {α : Type} (scope? : Option ScopeId) (x : Exec α) : Prop :=
  ∀ m a m₁, 0 < m.scopes.depth → x m = .ok (a, m₁) → Machine.KeepsStack scope? m m₁

/-- Laying out types leaves all but the layouts alone. -/
theorem Exec.layout_ok {α : Type} {x : LayoutM α} {m m₁ : Machine} {a : α}
    (h : Exec.layout x m = .ok (a, m₁)) :
    ∃ l, x.run m.layouts = .ok (a, l) ∧ m₁ = { m with layouts := l } := by
  unfold Exec.layout at h
  cases hx : x.run m.layouts with
  | error f =>
    rw [hx] at h
    cases h
  | ok r =>
    rw [hx] at h
    cases h
    exact ⟨r.2, rfl, rfl⟩

namespace Exec

variable {α β : Type} {scope? : Option ScopeId}

theorem keepsStack_bind {x : Exec α} {f : α → Exec β} (hx : x.KeepsStack scope?)
    (hf : ∀ a, (f a).KeepsStack scope?) : (x >>= f).KeepsStack scope? := by
  intro m b m₂ hopen h
  obtain ⟨a, m₁, h₁, h₂⟩ := bind_ok h
  have first := hx m a m₁ hopen h₁
  exact first.trans (hf a m₁ b m₂ (first.depth ▸ hopen) h₂)

theorem keepsStack_layout (x : LayoutM α) : (layout x).KeepsStack scope? := by
  intro m a m₁ _ h
  obtain ⟨l, -, rfl⟩ := layout_ok h
  exact Machine.KeepsStack.of_eq scope? rfl rfl

theorem keepsStack_inScope {parent : ScopeId} {x : ScopeId → Exec α}
    (h : ∀ scope, (x scope).KeepsStack (some scope)) : (inScope parent x).KeepsStack none := by
  intro m a m₁ hopen hx
  rw [inScope_apply] at hx
  cases hr : x m.scopes.depth (m.pushed parent) with
  | error f =>
    rw [hr] at hx
    cases hx
  | ok r =>
    rw [hr] at hx
    cases hx
    have opened : 0 < (m.pushed parent).scopes.depth := by
      rw [Machine.pushed, ScopeArena.depth_push]
      exact Nat.succ_pos _
    exact (h _ _ _ _ opened hr).popped hopen

/-- A body that keeps the depth of calls is back at the old depth afterwards. -/
theorem keepsStack_nested {x : Exec α} (h : x.KeepsStack scope?) : (nested x).KeepsStack scope? := by
  intro m a m₃ hopen hn
  obtain ⟨_, m₁, h₁, hn⟩ := bind_ok hn
  obtain ⟨b, m₂, h₂, hn⟩ := bind_ok hn
  obtain ⟨_, m₄, h₄, hn⟩ := bind_ok hn
  cases h₁
  cases h₄
  cases hn
  have body := h { m with callDepth := m.callDepth + 1 } a m₂ hopen h₂
  refine ⟨body.depth, body.parents, ?_, body.names⟩
  change m₂.callDepth - 1 = m.callDepth
  rw [body.callDepth]
  rfl

end Exec

/-- Every computation keeps the stack. -/
def Conduct.stack : Conduct where
  obeys scope? x := x.KeepsStack scope?
  types _ := True
  of_quiet h m a m₁ hopen hx := (h m a m₁ hopen hx).of_none
  obeys_pure a m b m₁ _ h := by
    cases h
    exact KeepsStack.refl none m
  obeys_bind := Exec.keepsStack_bind
  obeys_get _ h m a m₁ hopen hx :=
    h m (fun _ _ x _ => x.typed_of_all fun _ => trivial) m a m₁ hopen hx
  obeys_change {_ f} hf m a m₁ _ h := by
    have ended : f m = (a, m₁) := Except.ok.inj h
    refine KeepsStack.of_eq none ?_ ?_
    · rw [← hf.scopes m, ended]
    · rw [← hf.callDepth m, ended]
  obeys_typeInfo _ := Exec.keepsStack_layout _
  obeys_structInfo _ := Exec.keepsStack_layout _
  obeys_writePlace q v m a m₁ _ h := by
    have ended : (Machine.writePlace q v).apply m = (a, m₁) := Except.ok.inj h
    have kept := Machine.keepsStack_writePlace q v m
    rwa [ended] at kept
  obeys_nested := Exec.keepsStack_nested
  obeys_inScope := Exec.keepsStack_inScope
  obeys_bindName scope name slot m a m₁ _ h := by
    cases h
    exact Machine.keepsStack_bind scope name slot m

theorem Conduct.stack_admits (mentions : List Mention) : stack.Admits mentions :=
  fun x _ => x.typed_of_all fun _ => trivial

theorem Conduct.stack_admitsShader (s : Shader) : stack.AdmitsShader s :=
  admitsShader_of_all (fun _ => trivial) s

theorem Conduct.stack_answers (s : Shader) : stack.Answers s (Eval.call s) :=
  answers_call (stack_admitsShader s)

/-! ## Statements and expressions -/

/-- The same scopes are open, and the only name that is new is one in that scope. -/
structure Machine.Declares (scope : ScopeId) (declared : Option String) (m m₁ : Machine) : Prop
    extends KeepsStack (some scope) m m₁ where
  own : ∀ name, m₁.scopes.Binds scope name ↔ m.scopes.Binds scope name ∨ some name = declared

namespace Eval

variable {m m₁ : Machine} {scope : ScopeId} {s : Shader}

theorem settled_scopes {line : Nat} {x : Eval Flow} {flow : Flow}
    (h : settled line x m = .ok (flow, m₁)) : ∃ outcome m₀, x.run m = .ok (outcome, m₀) ∧
      m₁.scopes = m₀.scopes ∧ m₁.callDepth = m₀.callDepth := by
  cases hx : x.run m with
  | error f =>
    rw [settled_fault hx] at h
    cases h
  | ok r =>
    obtain ⟨outcome, m₀⟩ := r
    refine ⟨outcome, m₀, rfl, ?_⟩
    cases hd : m₀.discarded with
    | true =>
      rw [settled_discarded hx hd] at h
      cases h
      exact ⟨rfl, rfl⟩
    | false =>
      cases outcome with
      | ok f =>
        rw [settled_ok hx hd] at h
        cases h
        exact ⟨rfl, rfl⟩
      | error e =>
        rw [settled_error hx hd] at h
        cases h
        exact ⟨rfl, rfl⟩

/-- A declaration binds its name once its initial value is known or has failed. -/
theorem declare_binds {call : Caller} {v : VarDecl} {outcome : Run Unit}
    (h : (declare s call scope v).run m = .ok (outcome, m₁)) : ∃ value m₀ slot,
      (initialValue s call scope v).run m = .ok (value, m₀) ∧ m₁ = m₀.bind scope v.name slot := by
  obtain ⟨value, m₀, h₀, h⟩ := Exec.bind_ok h
  cases value with
  | ok u =>
    cases h
    exact ⟨.ok u, m₀, .value u, h₀, rfl⟩
  | error e =>
    cases h
    exact ⟨.error e, m₀, .value .void, h₀, rfl⟩

theorem declares_of_keepsStack (h : KeepsStack none m m₁) : m.Declares scope none m₁ where
  toKeepsStack := h.of_none
  own name := (h.names scope name nofun).trans (or_iff_left nofun).symm

/-- A declaration adds its name to the scope it runs in and nothing else. -/
theorem declares_simple {st : SimpleStmt} {kind : LocalKind} {v : VarDecl}
    (ha : st.action = .declare kind v) (hlive : scope < m.scopes.depth) {flow : Flow}
    (h : simple s (call s) scope st m = .ok (flow, m₁)) : m.Declares scope (some v.name) m₁ := by
  have hopen : 0 < m.scopes.depth := Nat.zero_lt_of_lt hlive
  obtain ⟨outcome, m₂, h₂, hs, hd⟩ := settled_scopes h
  have settled := KeepsStack.of_eq (some scope) hs hd
  have declared : ∃ outcome, (declare s (call s) scope v).run m = .ok (outcome, m₂) := by
    rw [ExceptT.run_bind] at h₂
    obtain ⟨outcome, m₃, h₃, h₂⟩ := Exec.bind_ok h₂
    rw [ha] at h₃
    cases outcome <;> cases h₂ <;> exact ⟨_, h₃⟩
  obtain ⟨outcome, h₃⟩ := declared
  obtain ⟨value, m₀, slot, h₀, rfl⟩ := declare_binds h₃
  have first : KeepsStack none m m₀ := by
    have quiet : Conduct.stack.quiet (initialValue s (call s) scope v).run :=
      Conduct.eval_initialValue (Conduct.stack_answers s) (Conduct.stack_admits _)
    exact quiet m value m₀ hopen h₀
  refine ⟨(first.of_none.trans (Machine.keepsStack_bind scope v.name slot m₀)).trans settled, ?_⟩
  intro name
  rw [hs, Machine.bind, ScopeArena.binds_insert, first.depth, first.names scope name nofun,
    Option.some_inj]
  exact or_congr_right ⟨fun h => h.2.1, fun h => ⟨rfl, h, hlive⟩⟩

theorem declares_stmt (hlive : scope < m.scopes.depth) {st : Stmt} {flow : Flow}
    (h : stmt s (call s) scope st m = .ok (flow, m₁)) : m.Declares scope st.declares? m₁ := by
  have hopen : 0 < m.scopes.depth := Nat.zero_lt_of_lt hlive
  cases hd : st.declares? with
  | none =>
    have quiet : Conduct.stack.quiet (stmt s (call s) scope st) :=
      Conduct.obeys_stmt (Conduct.stack_answers s) st none scope (Conduct.stack_admits _) (Or.inl hd)
    exact declares_of_keepsStack (quiet m flow m₁ hopen h)
  | some name =>
    cases st with
    | simple st =>
      cases ha : st.action with
      | declare kind v =>
        rw [Stmt.declares?, ha] at hd
        cases hd
        rw [stmt] at h
        exact declares_simple ha hlive h
      | _ =>
        rw [Stmt.declares?, ha] at hd
        cases hd
    | _ => cases hd

/-- Statements and expressions, run in an open scope, leave the same scopes open, with the same
parents and at the same depth of calls, however they end. They bind no name, except for a
declaration, which binds its own name in the scope that it runs in. -/
theorem stack_discipline (s : Shader) (m : Machine) (scope : ScopeId)
    (hlive : m.scopes.isLive scope = true) :
    (∀ st flow m₁, stmt s (call s) scope st m = .ok (flow, m₁) →
      m.Declares scope st.declares? m₁) ∧
    (∀ e outcome m₁, (expr s (call s) scope e).run m = .ok (outcome, m₁) →
      m.Declares scope none m₁) := by
  have live : scope < m.scopes.depth := of_decide_eq_true hlive
  refine ⟨fun st flow m₁ h => declares_stmt live h, fun e outcome m₁ h => ?_⟩
  have quiet : Conduct.stack.quiet (expr s (call s) scope e).run :=
    Conduct.eval_expr (Conduct.stack_answers s) e (Conduct.stack_admits _)
  exact declares_of_keepsStack (quiet m outcome m₁ (Nat.zero_lt_of_lt live) h)

/-- The statement `let lit = true;` below the root of a shader without declarations. -/
theorem stack_discipline_let :
    let s : Shader := ⟨⟨[]⟩, ⟨[], [], [], [], [], [], [], [], [], []⟩, []⟩
    let m := Machine.pushed { layouts := .ofProgram s.program } ScopeArena.root
    let lit : VarDecl := ⟨"lit", none, none, none, some (.literal ⟨0, 1⟩ (.bool true)), [], 1⟩
    let st : Stmt := .simple ⟨1, .declare .let_ lit⟩
    m.scopes.isLive 1 = true ∧ ∃ m₁, stmt s (call s) 1 st m = .ok (.normal, m₁) ∧
      m.Declares 1 (some "lit") m₁ := by
  intro s m lit st
  have live : m.scopes.isLive 1 = true := by decide
  exact ⟨live, _, rfl, (stack_discipline s m 1 live).1 st .normal _ rfl⟩

end Eval

end Wgsl
