import Wgsl.Machine.Stmt
import Wgsl.Proofs.Library.Renaming
import Wgsl.Proofs.Memory.Renaming

/-! # Two runs side by side

Two runs of one program from different machines. What the machines have in common is a
`Correspondence`; this module says when one computation follows another under it and how such facts
are put together.

* `Correspondence`: the relation of two machines, indexed by a world that knows the scopes which are
  open at the moment.
* `Correspondence.Sim` and `Correspondence.EvalSim`: the second computation follows the first.
* `Correspondence.Lawful`: what the primitive steps have to satisfy.

A correspondence may be lax: nothing is asked of the second run once the first has reported an error.
Every step keeps reported errors, so this is part of the judgements (`spoils`) and does not depend on
the assumption `p` under which the rest of a judgement holds.
-/

namespace Wgsl
set_option autoImplicit false

open Value (rename)

/-- Outcomes that stand for each other. -/
def Run.Alike {α : Type} (Q : α → α → Prop) : Run α → Run α → Prop
  | .ok a, r => ∃ a', r = .ok a' ∧ Q a a'
  | .error e, r => r = .error e

/-! ## What reading gives -/

/-- The place of a name that is bound to a slot. -/
def Slot.place (owner : ScopeId) (name : String) : Slot → Place
  | .view v => .ofView v
  | .value (.pointer p) => p
  | .value _ => .ofVariable owner name

namespace Machine

/-- The value of a name in a scope. -/
def nameValue (m : Machine) (scope : ScopeId) (name : String) : Run Value :=
  (m.scopes.lookup scope name).elim (.error (unknown name 0)) fun found => m.slotValue found.2

/-- The place of a name in a scope. -/
def namePlace (m : Machine) (scope : ScopeId) (name : String) (line : Nat) : Run Place :=
  (m.scopes.lookup scope name).elim (.error (unknown name line)) fun found =>
    .ok (found.2.place found.1 name)

end Machine

theorem Eval.get_bind_run {α : Type} (f : Machine → Eval α) (m : Machine) :
    (get >>= f : Eval α).run m = (f m).run m := rfl

theorem Eval.run_located {α : Type} (line : Nat) (x : Eval α) : (located line x).run =
    x.run >>= fun r => pure (r.mapError fun e => e.at_ line) :=
  map_eq_pure_bind _ x.run

theorem Eval.readName_run (scope : ScopeId) (name : String) (m : Machine) :
    (readName scope name).run m = .ok (m.nameValue scope name, m) := by
  unfold Machine.nameValue readName
  rw [get_bind_run]
  cases m.scopes.lookup scope name <;> rfl

theorem Eval.placeOfName_run (scope : ScopeId) (name : String) (line : Nat) (m : Machine) :
    (placeOfName scope name line).run m = .ok (m.namePlace scope name line, m) := by
  unfold Machine.namePlace placeOfName
  rw [get_bind_run]
  cases m.scopes.lookup scope name with
  | none => rfl
  | some found =>
    obtain ⟨owner, slot⟩ := found
    cases slot with
    | view view => rfl
    | value v => cases v <;> rfl

theorem Eval.readPlace_run (q : Place) (m : Machine) :
    (readPlace q).run m = .ok (m.readPlace q, m) := rfl

theorem Eval.countAt_run (q : Place) (m : Machine) :
    (get >>= fun m => liftM (m.countAt q) : Eval Nat).run m = .ok (m.countAt q, m) := rfl

/-! ## What writing does -/

namespace Machine

variable {m : Machine} {scope : ScopeId} {name : String} {path : List Access} {v : Value}

theorem get_bind_apply {σ α : Type} (f : σ → Change σ α) (s : σ) :
    (get >>= f : Change σ α).apply s = (f s).apply s := rfl

theorem writePlace_value {old : Value} (h : m.scopes.findIn? scope name = some (.value old)) :
    (writePlace ⟨.variable_ scope name, path⟩ v).apply m =
      (((Value.assignPath path v).apply old).1,
        m.bind scope name (.value ((Value.assignPath path v).apply old).2)) := by
  unfold writePlace
  dsimp only
  rw [get_bind_apply, h]
  rfl

theorem writePlace_view {view : BufferView} (h : m.scopes.findIn? scope name = some (.view view)) :
    (writePlace ⟨.variable_ scope name, path⟩ v).apply m =
      (onMemory (Memory.writePath view path v)).apply m := by
  unfold writePlace
  dsimp only
  rw [get_bind_apply, h]

theorem writePlace_none (h : m.scopes.findIn? scope name = none) :
    (writePlace ⟨.variable_ scope name, path⟩ v).apply m = (.error (unknown name 0), m) := by
  unfold writePlace
  dsimp only
  rw [get_bind_apply, h]
  rfl

/-- Writing reports nothing. -/
theorem diagnostics_writePlace (q : Place) (v : Value) (m : Machine) :
    ((writePlace q v).apply m).2.diagnostics = m.diagnostics := by
  obtain ⟨root, path⟩ := q
  cases root with
  | buffer view => rfl
  | variable_ scope name =>
    cases h : m.scopes.findIn? scope name with
    | none => rw [writePlace_none h]
    | some s =>
      cases s with
      | value old => rw [writePlace_value h]; rfl
      | view view => rw [writePlace_view h]; rfl

end Machine

/-! ## Correspondences -/

/-- A relation between the machines of two runs. -/
structure Correspondence where
  World : Type
  /-- An error of the first run releases the second. -/
  lax : Prop
  /-- The names in the second run. -/
  across : Renaming
  /-- What leaves the names that may occur in the first run as they are, and no others. -/
  within : Renaming
  rel : World → Machine → Machine → Prop
  /-- Places that stand for each other. -/
  places : World → Place → Place → Prop
  /-- The scopes that statements run in. -/
  scope : World → ScopeId
  scope' : World → ScopeId
  /-- The world after a declaration in these scopes. -/
  declare : World → String → World
  /-- The names that may be read. -/
  sees : World → String → Prop
  /-- The names that may be read in every function. -/
  free : String → Prop
  /-- The functions that may be called. -/
  calls : String → Prop
  /-- Whether addresses may be taken. -/
  address : Prop
  /-- The names that may be declared in these scopes. -/
  declares : World → String → Prop
  /-- The scopes are not the root, and they may declare every name. -/
  inner : World → Prop

namespace Correspondence

variable (C : Correspondence) {α β : Type} {p : Prop} {w w₁ w₂ : C.World}

/-- Values that stand for each other. -/
def values (v v' : Value) : Prop := v' = v.rename C.across ∧ v.rename C.within = v

/-- The second computation has ended like the first, in related machines. -/
def Ends (w : C.World) (Q : α → α → Prop) (a : α) (m : Machine)
    (second : Except Fault (α × Machine)) : Prop :=
  ∃ a' m', second = .ok (a', m') ∧ Q a a' ∧ C.rel w m m'

/-- The second computation has ended or failed like the first. A lax correspondence asks nothing
after an error, but the error will be reported. -/
def EndsOrFails (w : C.World) (Q : α → α → Prop) (outcome : Run α) (m : Machine)
    (second : Except Fault (Run α × Machine)) : Prop :=
  match outcome with
  | .ok a => ∃ a' m', second = .ok (.ok a', m') ∧ Q a a' ∧ C.rel w m m'
  | .error e => (C.lax ∧ m.discarded = false) ∨ ∃ m', second = .ok (.error e, m') ∧ C.rel w m m'

/-- The second computation does what the first does, from related machines. -/
structure Follows (p : Prop) (w : C.World) (x x' : Exec α)
    (R : α → Machine → Except Fault (α × Machine) → Prop) : Prop where
  spoils : ∀ m a m₁, x m = .ok (a, m₁) → m.diagnostics ≠ #[] → m₁.diagnostics ≠ #[]
  follows : p → ∀ m m', C.rel w m m' →
    match x m with
    | .error f => C.lax ∨ x' m' = .error f
    | .ok (a, m₁) => (C.lax ∧ m₁.diagnostics ≠ #[]) ∨ R a m₁ (x' m')

/-- Computations that raise no error. -/
def Sim (p : Prop) (w w₁ : C.World) (Q : α → α → Prop) (x x' : Exec α) : Prop :=
  C.Follows p w x x' (C.Ends w₁ Q)

/-- Computations that may raise an error. -/
def EvalSim (p : Prop) (w w₁ : C.World) (Q : α → α → Prop) (x x' : Eval α) : Prop :=
  C.Follows p w x.run x'.run (C.EndsOrFails w₁ Q)

end Correspondence

open Correspondence

variable {C : Correspondence} {α β : Type} {p q : Prop} {w w₁ w₂ : C.World}

/-! ## Computations without errors -/

theorem Exec.bind_ok {x : Exec α} {f : α → Exec β} {m m₂ : Machine} {b : β}
    (h : (x >>= f) m = .ok (b, m₂)) : ∃ a m₁, x m = .ok (a, m₁) ∧ f a m₁ = .ok (b, m₂) := by
  change (x m >>= fun r => f r.1 r.2) = _ at h
  cases hx : x m with
  | error e =>
    rw [hx] at h
    cases h
  | ok r =>
    rw [hx] at h
    exact ⟨r.1, r.2, rfl, h⟩

theorem Exec.bind_of_error {x : Exec α} {f : α → Exec β} {m : Machine} {e : Fault}
    (h : x m = .error e) : (x >>= f) m = .error e := by
  change (x m >>= fun r => f r.1 r.2) = _
  rw [h]
  rfl

theorem Exec.bind_of_ok {x : Exec α} {f : α → Exec β} {m m₁ : Machine} {a : α}
    (h : x m = .ok (a, m₁)) : (x >>= f) m = f a m₁ := by
  change (x m >>= fun r => f r.1 r.2) = _
  rw [h]
  rfl

theorem Correspondence.Follows.weaken {x x' : Exec α}
    {R R' : α → Machine → Except Fault (α × Machine) → Prop} (h : C.Follows q w x x' R)
    (hp : p → q) (hR : p → ∀ a m r, R a m r → R' a m r) : C.Follows p w x x' R' where
  spoils := h.spoils
  follows hp' m m' hm := by
    have := h.follows (hp hp') m m' hm
    cases hx : x m with
    | error f =>
      rw [hx] at this
      exact this
    | ok r =>
      rw [hx] at this
      exact this.imp id (hR hp' _ _ _)

theorem sim_pure {Q : α → α → Prop} {a a' : α} (h : p → Q a a') :
    C.Sim p w w Q (pure a) (pure a') where
  spoils m b m₁ e := by
    cases e
    exact id
  follows hp m m' hm := Or.inr ⟨a', m', rfl, h hp, hm⟩

/-- What follows a first part, given what the second run has done by then. -/
theorem Correspondence.Follows.bind {x x' : Exec α} {f f' : α → Exec β}
    {R : α → Machine → Except Fault (α × Machine) → Prop}
    {S : β → Machine → Except Fault (β × Machine) → Prop} (hx : C.Follows p w x x' R)
    (hs : ∀ a m b m₁, f a m = .ok (b, m₁) → m.diagnostics ≠ #[] → m₁.diagnostics ≠ #[])
    (hf : p → ∀ a m r, R a m r →
      match f a m with
      | .error e => C.lax ∨ (r >>= fun s => f' s.1 s.2) = .error e
      | .ok (b, m₁) => (C.lax ∧ m₁.diagnostics ≠ #[]) ∨ S b m₁ (r >>= fun s => f' s.1 s.2)) :
    C.Follows p w (x >>= f) (x' >>= f') S where
  spoils m b m₂ e hm := by
    obtain ⟨a, m₁, h₁, h₂⟩ := Exec.bind_ok e
    exact hs a m₁ b m₂ h₂ (hx.spoils m a m₁ h₁ hm)
  follows hp m m' hm := by
    have first := hx.follows hp m m' hm
    change match (x m >>= fun r => f r.1 r.2) with
      | .error f => C.lax ∨ (x' m' >>= fun r => f' r.1 r.2) = .error f
      | .ok (a, m₁) => (C.lax ∧ m₁.diagnostics ≠ #[]) ∨ S a m₁ (x' m' >>= fun r => f' r.1 r.2)
    cases hx₁ : x m with
    | error e =>
      rw [hx₁] at first
      refine first.imp id fun h => ?_
      rw [h]
      rfl
    | ok r =>
      obtain ⟨a, m₁⟩ := r
      rw [hx₁] at first
      obtain ⟨hlax, hspoilt⟩ | hR := first
      · show match f a m₁ with
          | .error f => C.lax ∨ (x' m' >>= fun r => f' r.1 r.2) = .error f
          | .ok (b, m₂) => (C.lax ∧ m₂.diagnostics ≠ #[]) ∨ S b m₂ (x' m' >>= fun r => f' r.1 r.2)
        cases hb : f a m₁ with
        | error e => exact Or.inl hlax
        | ok s => exact Or.inl ⟨hlax, hs a m₁ s.1 s.2 hb hspoilt⟩
      · exact hf hp a m₁ _ hR

theorem sim_bind {P : α → α → Prop} {Q : β → β → Prop} {x x' : Exec α} {f f' : α → Exec β}
    (hx : C.Sim p w w₁ P x x') (hf : ∀ a a', C.Sim (p ∧ P a a') w₁ w₂ Q (f a) (f' a')) :
    C.Sim p w w₂ Q (x >>= f) (x' >>= f') := by
  refine Follows.bind hx (fun a => (hf a a).spoils) ?_
  rintro hp a m r ⟨a', m', rfl, hP, hm⟩
  exact (hf a a').follows ⟨hp, hP⟩ m m' hm

theorem sim_weaken {P Q : α → α → Prop} {x x' : Exec α} (h : C.Sim q w w₁ P x x') (hp : p → q)
    (hQ : p → ∀ a a', P a a' → Q a a') (hw : p → ∀ m m', C.rel w₁ m m' → C.rel w₂ m m') :
    C.Sim p w w₂ Q x x' := by
  refine Follows.weaken h hp fun hp' a m r hr => ?_
  obtain ⟨a', m', h₁, h₂, h₃⟩ := hr
  exact ⟨a', m', h₁, hQ hp' a a' h₂, hw hp' m m' h₃⟩

/-- A change of the machine that touches no diagnostics. -/
theorem sim_modify {f f' : Machine → Machine} (hd : ∀ m, (f m).diagnostics = m.diagnostics)
    (hf : p → ∀ m m', C.rel w m m' → C.rel w₁ (f m) (f' m')) :
    C.Sim p w w₁ (fun _ _ => True) (modify f : Exec PUnit) (modify f') where
  spoils m a m₁ e hm := by
    cases e
    rw [hd]
    exact hm
  follows hp m m' hm := Or.inr ⟨⟨⟩, f' m', rfl, trivial, hf hp m m' hm⟩

/-- Computations for equal numbers. -/
theorem Correspondence.Follows.of_eq {f f' : α → Exec β}
    {R : β → Machine → Except Fault (β × Machine) → Prop} (h : ∀ a, C.Follows p w (f a) (f' a) R)
    (a a' : α) : C.Follows (p ∧ a = a') w (f a) (f' a') R where
  spoils := (h a).spoils
  follows hp := by
    obtain ⟨hp, rfl⟩ := hp
    exact (h a).follows hp

/-- What is assumed besides; without it only reported errors have to stay. -/
theorem Correspondence.Follows.under {w₀ : C.World} {x x' y : Exec α}
    {R S : α → Machine → Except Fault (α × Machine) → Prop} (hs : C.Follows True w₀ x y S)
    (h : q → C.Follows p w x x' R) : C.Follows (p ∧ q) w x x' R where
  spoils := hs.spoils
  follows hp := (h hp.2).follows hp.1

/-- Computations on a result that is the image of the other. -/
theorem Correspondence.Follows.of_image {f f' : α → Exec β} {g : α → α} {P : α → Prop}
    {R : β → Machine → Except Fault (β × Machine) → Prop}
    (h : ∀ a, C.Follows (p ∧ P a) w (f a) (f' (g a)) R) (a a' : α) :
    C.Follows (p ∧ a' = g a ∧ P a) w (f a) (f' a') R where
  spoils := (h a).spoils
  follows hp := by
    obtain ⟨hp, rfl, ha⟩ := hp
    exact (h a).follows ⟨hp, ha⟩

/-! ## Computations with errors -/

theorem evalSim_pure {Q : α → α → Prop} {a a' : α} (h : p → Q a a') :
    C.EvalSim p w w Q (pure a) (pure a') where
  spoils m b m₁ e := by
    cases e
    exact id
  follows hp m m' hm := Or.inr ⟨a', m', rfl, h hp, hm⟩

theorem evalSim_bind {P : α → α → Prop} {Q : β → β → Prop} {x x' : Eval α} {f f' : α → Eval β}
    (hx : C.EvalSim p w w₁ P x x') (hf : ∀ a a', C.EvalSim (p ∧ P a a') w₁ w₁ Q (f a) (f' a')) :
    C.EvalSim p w w₁ Q (x >>= f) (x' >>= f') := by
  unfold EvalSim
  rw [ExceptT.run_bind, ExceptT.run_bind]
  refine Follows.bind hx ?_ ?_
  · intro r m b m₁ e
    cases r with
    | ok a => exact (hf a a).spoils m b m₁ e
    | error e' =>
      cases e
      exact id
  · intro hp r m second hR
    cases r with
    | ok a =>
      obtain ⟨a', m', rfl, hP, hm⟩ := hR
      exact (hf a a').follows ⟨hp, hP⟩ m m' hm
    | error e =>
      refine Or.inr ?_
      obtain ⟨hlax, hcalm⟩ | ⟨m', rfl, hm⟩ := hR
      · exact Or.inl ⟨hlax, hcalm⟩
      · exact Or.inr ⟨m', rfl, hm⟩

theorem evalSim_bind_eq {Q : β → β → Prop} {x x' : Eval α} {f f' : α → Eval β}
    (hx : C.EvalSim p w w₁ Eq x x') (hf : ∀ a, C.EvalSim p w₁ w₁ Q (f a) (f' a)) :
    C.EvalSim p w w₁ Q (x >>= f) (x' >>= f') :=
  evalSim_bind hx fun a a' => Follows.of_eq hf a a'

theorem evalSim_weaken {P Q : α → α → Prop} {x x' : Eval α} (h : C.EvalSim q w w₁ P x x')
    (hp : p → q) (hQ : p → ∀ a a', P a a' → Q a a')
    (hw : p → ∀ m m', C.rel w₁ m m' → C.rel w₂ m m') : C.EvalSim p w w₂ Q x x' := by
  refine Follows.weaken h hp fun hp' r m second hR => ?_
  cases r with
  | ok a =>
    obtain ⟨a', m', h₁, h₂, h₃⟩ := hR
    exact ⟨a', m', h₁, hQ hp' a a' h₂, hw hp' m m' h₃⟩
  | error e => exact hR.imp id fun ⟨m', h₁, h₂⟩ => ⟨m', h₁, hw hp' m m' h₂⟩

/-- The same under a stronger assumption. -/
theorem evalSim_assuming {Q : α → α → Prop} {x x' : Eval α} (h : C.EvalSim q w w₁ Q x x')
    (hp : p → q) : C.EvalSim p w w₁ Q x x' :=
  evalSim_weaken h hp (fun _ _ _ h => h) fun _ _ _ h => h

/-- The second computation may be written in another way. -/
theorem evalSim_congr {Q : α → α → Prop} {x x' y : Eval α} (h : C.EvalSim p w w₁ Q x y)
    (hy : p → x' = y) : C.EvalSim p w w₁ Q x x' where
  spoils := h.spoils
  follows hp := by
    rw [hy hp]
    exact h.follows hp

/-- Nothing is asked where the assumption fails. -/
theorem evalSim_absurd {P Q : α → α → Prop} {x x' y : Eval α} {w₀ : C.World}
    (h : C.EvalSim q w₀ w₂ P x y) (hp : p → False) : C.EvalSim p w w₁ Q x x' where
  spoils := h.spoils
  follows h := (hp h).elim

theorem evalSim_ofExec {Q : α → α → Prop} {x x' : Exec α} (h : C.Sim p w w₁ Q x x') :
    C.EvalSim p w w₁ Q (Eval.ofExec x) (Eval.ofExec x') := by
  have run_ofExec : ∀ x : Exec α, (Eval.ofExec x).run = x >>= fun a => pure (.ok a) := fun _ => rfl
  unfold EvalSim
  rw [run_ofExec, run_ofExec]
  refine Follows.bind h ?_ ?_
  · intro a m b m₁ e
    cases e
    exact id
  · rintro - a m second ⟨a', m', rfl, hQ, hm⟩
    exact Or.inr ⟨a', m', rfl, hQ, hm⟩

theorem evalSim_located {Q : α → α → Prop} {x x' : Eval α} (line : Nat)
    (h : C.EvalSim p w w₁ Q x x') :
    C.EvalSim p w w₁ Q (Eval.located line x) (Eval.located line x') := by
  unfold EvalSim
  rw [Eval.run_located, Eval.run_located]
  refine Follows.bind h ?_ ?_
  · intro a m b m₁ e
    cases e
    exact id
  · intro _ r m second hR
    refine Or.inr ?_
    cases r with
    | ok a =>
      obtain ⟨a', m', rfl, hQ, hm⟩ := hR
      exact ⟨a', m', rfl, hQ, hm⟩
    | error e =>
      obtain h | ⟨m', rfl, hm⟩ := hR
      · exact Or.inl h
      · exact Or.inr ⟨m', rfl, hm⟩

/-- Reading the machine inside a computation that may fail. -/
theorem evalSim_reading {Q : α → α → Prop} {f f' : Machine → Eval α}
    (h : ∀ m m', C.EvalSim (p ∧ C.rel w m m') w w Q (f m) (f' m')) :
    C.EvalSim p w w Q (get >>= f) (get >>= f') where
  spoils m a m₁ e := (h m m).spoils m a m₁ e
  follows hp m m' hm := (h m m').follows ⟨hp, hm⟩ m m' hm

/-- Computations that only read. Nothing is asked where a lax correspondence is released. -/
theorem evalSim_of_read_or {Q : α → α → Prop} {x x' : Eval α} {r r' : Machine → Run α}
    (hx : ∀ m, x.run m = .ok (r m, m)) (hx' : ∀ m, x'.run m = .ok (r' m, m))
    (h : p → ∀ m m', C.rel w m m' →
      Run.Alike Q (r m) (r' m') ∨ (C.lax ∧ m.discarded = false ∧ ∃ e, r m = .error e)) :
    C.EvalSim p w w Q x x' where
  spoils m a m₁ e hm := by
    rw [hx] at e
    cases e
    exact hm
  follows hp m m' hm := by
    have outcome := h hp m m' hm
    rw [hx, hx']
    refine Or.inr ?_
    obtain alike | ⟨hlax, hcalm, e, he⟩ := outcome
    · cases hr : r m with
      | ok a =>
        rw [hr] at alike
        obtain ⟨a', ha', hQ⟩ := alike
        exact ⟨a', m', by rw [ha'], hQ, hm⟩
      | error e =>
        rw [hr] at alike
        have he : r' m' = .error e := alike
        exact Or.inr ⟨m', by rw [he], hm⟩
    · rw [he]
      exact Or.inl ⟨hlax, hcalm⟩

/-- Computations that only read. -/
theorem evalSim_of_read {Q : α → α → Prop} {x x' : Eval α} {r r' : Machine → Run α}
    (hx : ∀ m, x.run m = .ok (r m, m)) (hx' : ∀ m, x'.run m = .ok (r' m, m))
    (h : p → ∀ m m', C.rel w m m' → Run.Alike Q (r m) (r' m')) : C.EvalSim p w w Q x x' :=
  evalSim_of_read_or hx hx' fun hp m m' hm => Or.inl (h hp m m' hm)

/-- Changes of the machine that report nothing. Nothing is asked where a lax correspondence is
released. -/
theorem evalSim_of_change_or {Q : α → α → Prop} {c c' : Change Machine α}
    (hd : ∀ m, (c.apply m).2.diagnostics = m.diagnostics)
    (h : p → ∀ m m', C.rel w m m' →
      (Run.Alike Q (c.apply m).1 (c'.apply m').1 ∧ C.rel w (c.apply m).2 (c'.apply m').2) ∨
        (C.lax ∧ (c.apply m).2.discarded = false ∧ ∃ e, (c.apply m).1 = .error e)) :
    C.EvalSim p w w Q (Eval.ofChange c) (Eval.ofChange c') where
  spoils m a m₁ e hm := by
    have e' : c.apply m = (a, m₁) := Except.ok.inj e
    have hm₁ := hd m
    rw [e'] at hm₁
    rw [hm₁]
    exact hm
  follows hp m m' hm := by
    have outcome := h hp m m' hm
    change (C.lax ∧ _) ∨ C.EndsOrFails w Q (c.apply m).1 (c.apply m).2 (.ok (c'.apply m'))
    refine Or.inr ?_
    rcases hc : c.apply m with ⟨outcome₁, m₁⟩
    rcases hc' : c'.apply m' with ⟨outcome₁', m₁'⟩
    rw [hc, hc'] at outcome
    obtain ⟨alike, hm₁⟩ | ⟨hlax, hcalm, e, rfl⟩ := outcome
    · cases outcome₁ with
      | ok a =>
        obtain ⟨a', ha', hQ⟩ := alike
        exact ⟨a', m₁', by rw [show outcome₁' = .ok a' from ha'], hQ, hm₁⟩
      | error e => exact Or.inr ⟨m₁', by rw [show outcome₁' = .error e from alike], hm₁⟩
    · exact Or.inl ⟨hlax, hcalm⟩

/-- Changes of the machine that report nothing. -/
theorem evalSim_of_change {Q : α → α → Prop} {c c' : Change Machine α}
    (hd : ∀ m, (c.apply m).2.diagnostics = m.diagnostics)
    (h : p → ∀ m m', C.rel w m m' →
      Run.Alike Q (c.apply m).1 (c'.apply m').1 ∧ C.rel w (c.apply m).2 (c'.apply m').2) :
    C.EvalSim p w w Q (Eval.ofChange c) (Eval.ofChange c') :=
  evalSim_of_change_or hd fun hp m m' hm => Or.inl (h hp m m' hm)

/-! ## What the primitive steps have to satisfy -/

/-- A machine with a fresh scope. -/
def Machine.pushed (m : Machine) (parent : ScopeId) : Machine :=
  { m with scopes := (m.scopes.push parent).1 }

/-- A machine in which a scope is closed. -/
def Machine.popped (m : Machine) (scope : ScopeId) : Machine :=
  { m with scopes := m.scopes.pop scope }

/-- The world `w₁` is the one in the fresh scopes; from there one gets back to `w`. -/
structure Correspondence.Opens (C : Correspondence) (w w₁ : C.World) (parent parent' : ScopeId)
    (m m' : Machine) : Prop where
  inner : C.inner w₁
  scope : C.scope w₁ = m.scopes.depth
  scope' : C.scope' w₁ = m'.scopes.depth
  opened : C.rel w₁ (m.pushed parent) (m'.pushed parent')
  closed : ∀ n n', C.rel w₁ n n' → C.rel w (n.popped (C.scope w₁)) (n'.popped (C.scope' w₁))

/-- The laws of a correspondence. -/
structure Correspondence.Lawful (C : Correspondence) : Prop where
  calm : ∀ {w m m'}, C.rel w m m' → C.lax → m.discarded = false
  discarded : ∀ {w m m'}, C.rel w m m' → m'.discarded = m.discarded
  callResults : ∀ {w m m'}, C.rel w m m' → m.callResults = [] ∧ m'.callResults = []
  callDepth : ∀ {w m m'}, C.rel w m m' → m'.callDepth = m.callDepth
  withDepth : ∀ {w m m'} n, C.rel w m m' →
    C.rel w { m with callDepth := n } { m' with callDepth := n }
  layouts : ∀ {w m m'}, C.rel w m m' → m'.layouts = m.layouts
  withLayouts : ∀ {w m m'} l, C.rel w m m' →
    C.rel w { m with layouts := l } { m' with layouts := l }
  reported : ∀ {w m m'} e, ¬C.lax → C.rel w m m' →
    C.rel w { m with diagnostics := m.diagnostics.push e }
      { m' with diagnostics := m'.diagnostics.push e }
  readName : ∀ w name, C.EvalSim (C.sees w name) w w C.values (Eval.readName (C.scope w) name)
    (Eval.readName (C.scope' w) name)
  placeOfName : ∀ w name line, C.EvalSim (C.sees w name) w w (C.places w)
    (Eval.placeOfName (C.scope w) name line) (Eval.placeOfName (C.scope' w) name line)
  readPlace : ∀ w q q', C.EvalSim (C.places w q q') w w C.values (Eval.readPlace q)
    (Eval.readPlace q')
  writePlace : ∀ w q q' v v', C.EvalSim (C.places w q q' ∧ C.values v v') w w (fun _ _ => True)
    (Eval.writePlace q v) (Eval.writePlace q' v')
  countAt : ∀ w q q', C.EvalSim (C.places w q q') w w Eq (get >>= fun m => liftM (m.countAt q))
    (get >>= fun m => liftM (m.countAt q'))
  below : ∀ {w q q'} a, C.places w q q' → C.places w (q.below a) (q'.below a)
  ofPointer : ∀ {w q q'}, C.values (.pointer q) (.pointer q') → C.places w q q'
  toPointer : ∀ {w q q'}, C.address → C.places w q q' → C.values (.pointer q) (.pointer q')
  texture : ∀ {w m m' i i'}, C.values (.texture i) (.texture i') → C.rel w m m' →
    m'.memory.texture i' = m.memory.texture i
  onTexture : ∀ w i i' c, C.EvalSim (C.values (.texture i) (.texture i')) w w (fun _ _ => True)
    (Eval.ofChange (Machine.onMemory (Memory.onTexture i c)))
    (Eval.ofChange (Machine.onMemory (Memory.onTexture i' c)))
  bind : ∀ {w m m' v v'} name, C.declares w name → C.values v v' → C.rel w m m' →
    C.rel (C.declare w name) (m.bind (C.scope w) name (.value v))
      (m'.bind (C.scope' w) name (.value v'))
  weaken : ∀ {w m m'} name, C.rel (C.declare w name) m m' → C.rel w m m'
  scope_declare : ∀ w name, C.scope (C.declare w name) = C.scope w
  scope'_declare : ∀ w name, C.scope' (C.declare w name) = C.scope' w
  sees_declare : ∀ {w n} name, C.sees w n → C.sees (C.declare w name) n
  declares_inner : ∀ {w} name, C.inner w → C.declares w name
  inner_declare : ∀ {w} name, C.inner w → C.inner (C.declare w name)
  sees_declared : ∀ {w} name, C.inner w → C.sees (C.declare w name) name
  /-- Every number is the scope of a world that sees all names. -/
  everywhere : ∀ scope, ∃ w, C.scope w = scope ∧ C.inner w ∧ ∀ n, C.sees w n
  opens : ∀ {w m m'}, C.rel w m m' → ∃ w₁, C.Opens w w₁ (C.scope w) (C.scope' w) m m' ∧
    ∀ n, C.sees w n → C.sees w₁ n
  enters : ∀ {w m m'}, C.rel w m m' → ∃ w₁, C.Opens w w₁ ScopeArena.root ScopeArena.root m m' ∧
    ∀ n, C.free n → C.sees w₁ n
  discard : ∀ {w m m'}, ¬C.lax → C.rel w m m' →
    C.rel w { m with discarded := true } { m' with discarded := true }

/-! ## Scopes -/

theorem Exec.inScope_apply (parent : ScopeId) (x : ScopeId → Exec α) (m : Machine) :
    Exec.inScope parent x m = (x m.scopes.depth (m.pushed parent) >>= fun r =>
      .ok (r.1, r.2.popped m.scopes.depth)) := rfl

/-- Computations in fresh scopes, given what is left of an end when the scopes are closed. -/
theorem Correspondence.Follows.inScope {x x' : ScopeId → Exec α} {parent parent' : ScopeId}
    {R : C.World → α → Machine → Except Fault (α × Machine) → Prop} {G : C.World → Prop}
    (hopens : ∀ {m m'}, C.rel w m m' → ∃ w₁, C.Opens w w₁ parent parent' m m' ∧ G w₁)
    (heverywhere : ∀ scope, ∃ w₁, C.scope w₁ = scope ∧ G w₁)
    (hclosed : ∀ w₁ a m r,
      (∀ n n', C.rel w₁ n n' → C.rel w (n.popped (C.scope w₁)) (n'.popped (C.scope' w₁))) →
      R w₁ a m r → R w a (m.popped (C.scope w₁))
        (r >>= fun r => .ok (r.1, r.2.popped (C.scope' w₁))))
    (h : ∀ w₁, G w₁ → C.Follows p w₁ (x (C.scope w₁)) (x' (C.scope' w₁)) (R w₁)) :
    C.Follows p w (Exec.inScope parent x) (Exec.inScope parent' x') (R w) where
  spoils m a m₁ e hm := by
    obtain ⟨w₁, hscope, good⟩ := heverywhere m.scopes.depth
    rw [Exec.inScope_apply] at e
    cases hx : x m.scopes.depth (m.pushed parent) with
    | error f =>
      rw [hx] at e
      cases e
    | ok r =>
      rw [hx] at e
      cases e
      rw [← hscope] at hx
      exact (h w₁ good).spoils (m.pushed parent) r.1 r.2 hx hm
  follows hp m m' hm := by
    obtain ⟨w₁, hopened, good⟩ := hopens hm
    have body := (h w₁ good).follows hp _ _ hopened.opened
    rw [Exec.inScope_apply, Exec.inScope_apply, ← hopened.scope, ← hopened.scope']
    cases hx : x (C.scope w₁) (m.pushed parent) with
    | error f =>
      rw [hx] at body
      refine body.imp id fun e => ?_
      rw [e]
      rfl
    | ok r =>
      rw [hx] at body
      exact body.imp id (hclosed w₁ _ _ _ hopened.closed)

/-! ## Lifted outcomes -/

theorem alike_of_natural {f : Value → Run Value} (hf : ∀ ρ, Value.Natural ρ f) {v v' : Value}
    (h : C.values v v') : Run.Alike C.values (f v) (f v') := by
  obtain ⟨rfl, hv⟩ := h
  have across := hf C.across v
  have within := hf C.within v
  rw [hv] at within
  rw [across]
  cases hr : f v with
  | error e => rfl
  | ok r =>
    rw [hr] at within
    exact ⟨r.rename C.across, rfl, rfl, (Except.ok.inj within).symm⟩

theorem alike_of_invariant {f : Value → Run α} (hf : ∀ ρ v, f (rename ρ v) = f v) {v v' : Value}
    (h : C.values v v') : Run.Alike Eq (f v) (f v') := by
  obtain ⟨rfl, -⟩ := h
  rw [hf]
  cases f v with
  | error e => rfl
  | ok r => exact ⟨r, rfl, rfl⟩

section

variable (L : C.Lawful)

include L

theorem evalSim_throw {Q : α → α → Prop} (e : RunError) : C.EvalSim p w w Q (throw e) (throw e) where
  spoils m b m₁ h := by
    cases h
    exact id
  follows _ m m' hm := by
    refine Or.inr ?_
    by_cases hl : C.lax
    · exact Or.inl ⟨hl, L.calm hm hl⟩
    · exact Or.inr ⟨m', rfl, hm⟩

theorem evalSim_lift {Q : α → α → Prop} {x x' : Run α} (h : p → Run.Alike Q x x') :
    C.EvalSim p w w Q (liftM x) (liftM x') where
  spoils m b m₁ e := by
    cases e
    exact id
  follows hp m m' hm := by
    cases x with
    | error e =>
      have h' : x' = .error e := h hp
      subst h'
      exact (evalSim_throw L e (Q := Q)).follows hp m m' hm
    | ok a =>
      obtain ⟨a', rfl, hQ⟩ : ∃ a', x' = .ok a' ∧ Q a a' := h hp
      exact Or.inr ⟨a', m', rfl, hQ, hm⟩

/-- What holds in scopes that are fresh and know all names known around them. -/
theorem sim_inScope {Q : α → α → Prop} {x x' : ScopeId → Exec α}
    (h : ∀ w₁, C.inner w₁ → (∀ n, C.sees w n → C.sees w₁ n) →
      C.Sim p w₁ w₁ Q (x (C.scope w₁)) (x' (C.scope' w₁))) :
    C.Sim p w w Q (Exec.inScope (C.scope w) x) (Exec.inScope (C.scope' w) x') := by
  refine Follows.inScope (G := fun w₁ => C.inner w₁ ∧ ∀ n, C.sees w n → C.sees w₁ n)
    (R := fun w₁ => C.Ends w₁ Q) ?_ ?_ ?_ fun w₁ good => h w₁ good.1 good.2
  · intro m m' hm
    obtain ⟨w₁, hw₁, hsees⟩ := L.opens hm
    exact ⟨w₁, hw₁, hw₁.inner, hsees⟩
  · intro scope
    obtain ⟨w₁, hscope, hinner, hsees⟩ := L.everywhere scope
    exact ⟨w₁, hscope, hinner, fun n _ => hsees n⟩
  · rintro w₁ a m _ hback ⟨a', m', rfl, hQ, hm⟩
    exact ⟨a', _, rfl, hQ, hback m m' hm⟩

theorem evalSim_inScope {Q : α → α → Prop} {x x' : ScopeId → Eval α}
    (h : ∀ w₁, C.inner w₁ → (∀ n, C.sees w n → C.sees w₁ n) →
      C.EvalSim p w₁ w₁ Q (x (C.scope w₁)) (x' (C.scope' w₁))) :
    C.EvalSim p w w Q (Eval.inScope (C.scope w) x) (Eval.inScope (C.scope' w) x') := by
  refine Follows.inScope (G := fun w₁ => C.inner w₁ ∧ ∀ n, C.sees w n → C.sees w₁ n)
    (R := fun w₁ => C.EndsOrFails w₁ Q) ?_ ?_ ?_ fun w₁ good => h w₁ good.1 good.2
  · intro m m' hm
    obtain ⟨w₁, hw₁, hsees⟩ := L.opens hm
    exact ⟨w₁, hw₁, hw₁.inner, hsees⟩
  · intro scope
    obtain ⟨w₁, hscope, hinner, hsees⟩ := L.everywhere scope
    exact ⟨w₁, hscope, hinner, fun n _ => hsees n⟩
  · intro w₁ outcome m second hback hR
    cases outcome with
    | ok a =>
      obtain ⟨a', m', rfl, hQ, hm⟩ := hR
      exact ⟨a', _, rfl, hQ, hback m m' hm⟩
    | error e =>
      obtain hlax | ⟨m', rfl, hm⟩ := hR
      · exact Or.inl hlax
      · exact Or.inr ⟨_, rfl, hback m m' hm⟩

/-- What holds in the fresh scopes of a call. -/
theorem sim_inCall {Q : α → α → Prop} {x x' : ScopeId → Exec α}
    (h : ∀ w₁, C.inner w₁ → (∀ n, C.free n → C.sees w₁ n) →
      C.Sim p w₁ w₁ Q (x (C.scope w₁)) (x' (C.scope' w₁))) :
    C.Sim p w w Q (Exec.inScope ScopeArena.root x) (Exec.inScope ScopeArena.root x') := by
  refine Follows.inScope (G := fun w₁ => C.inner w₁ ∧ ∀ n, C.free n → C.sees w₁ n)
    (R := fun w₁ => C.Ends w₁ Q) ?_ ?_ ?_ fun w₁ good => h w₁ good.1 good.2
  · intro m m' hm
    obtain ⟨w₁, hw₁, hfree⟩ := L.enters hm
    exact ⟨w₁, hw₁, hw₁.inner, hfree⟩
  · intro scope
    obtain ⟨w₁, hscope, hinner, hsees⟩ := L.everywhere scope
    exact ⟨w₁, hscope, hinner, fun n _ => hsees n⟩
  · rintro w₁ a m _ hback ⟨a', m', rfl, hQ, hm⟩
    exact ⟨a', _, rfl, hQ, hback m m' hm⟩

theorem sim_layout (x : LayoutM α) : C.Sim p w w Eq (Exec.layout x) (Exec.layout x) where
  spoils m a m₁ e hm := by
    unfold Exec.layout at e
    cases hx : x.run m.layouts with
    | error f =>
      rw [hx] at e
      cases e
    | ok r =>
      rw [hx] at e
      cases e
      exact hm
  follows _ m m' hm := by
    unfold Exec.layout
    rw [L.layouts hm]
    cases x.run m.layouts with
    | error f => exact Or.inr rfl
    | ok r => exact Or.inr ⟨r.1, _, rfl, rfl, L.withLayouts r.2 hm⟩

theorem evalSim_typeInfo (t : TypeExpr) :
    C.EvalSim p w w Eq (Eval.typeInfo t) (Eval.typeInfo t) :=
  evalSim_ofExec (sim_layout L _)

theorem evalSim_structInfo? (name : String) :
    C.EvalSim p w w Eq (Eval.structInfo? name) (Eval.structInfo? name) :=
  evalSim_ofExec (sim_layout L _)

end

end Wgsl
