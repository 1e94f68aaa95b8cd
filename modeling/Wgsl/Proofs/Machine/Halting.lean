import Wgsl.Proofs.Machine.Discarding
import Wgsl.Proofs.Machine.Unnoticed

/-! # A run that halts at its first discard

Beside the interpreter stands one that halts: it marks the machine as soon as a `discard` is run,
and it refuses to begin a statement on a marked machine. Where the two agree, the interpreter runs no
statement after a discard.

* `Halting.hooks`, `Halting.stmts`, `Halting.call`: the interpreter that halts.
* `Exec.Heeds`: two computations that agree but for the mark. `Exec.Halts` and `Eval.Halts` say
  besides what is left to do after a discard, and pass from the parts of a statement to the whole.
* `Eval.halts_settled`: a statement ends because of a discard in it, whether its flow or the mark
  tells.
-/

namespace Wgsl
set_option autoImplicit false

open Invariant (mirrors_anything)

variable {α β : Type}

/-! ## A run that halts -/

/-- The machine once something has been discarded. -/
def Machine.discarding (m : Machine) : Machine := { m with discarded := true }

/-- Begins a statement, but not on a machine that has discarded. -/
def Exec.begun (stop : Fault) (x : Exec α) : Exec α := fun m =>
  if m.discarded then .error stop else x m

namespace Halting

/-- A `discard` marks the machine, and no statement is begun on a marked machine. -/
def hooks (stop : Fault) : Hooks where
  begun := Exec.begun stop
  discard _ := do
    modify Machine.discarding
    return .discard

/-- Runs statements one after another until one does not end normally. -/
def stmts (s : Shader) (call : Caller) (stop : Fault) (scope : ScopeId) (body : List Stmt) :
    Exec Flow :=
  (hooks stop).stmts s call scope body

/-- Calls a function, as deep as calls may nest. -/
def call (s : Shader) (stop : Fault) : Caller := (hooks stop).call s

/-- Expressions have the values that the interpreter gives them. -/
theorem sameValues (stop : Fault) : (hooks stop).SameValues .anything where
  typeInfo _ t := mirrors_anything (Eval.typeInfo t)
  structInfo? _ name := mirrors_anything (Eval.structInfo? name)
  binary _ op l r _ _ := mirrors_anything (Value.binary op l r)
  builtin _ name args _ := mirrors_anything (Eval.callBuiltin name args)
  evaluated hx := hx

end Halting

/-! ## Two runs, one of which halts -/

/-- How a run that halts ends where the other one does: the machine is marked for some outcomes. -/
def Exec.noted (mark : α → Bool) (r : α × Machine) : α × Machine :=
  (r.1, if mark r.1 then r.2.discarding else r.2)

/-- The second computation ends like the first, with the machine marked for some outcomes. Once
something is discarded, only some outcomes are left. -/
structure Exec.Heeds (mark : α → Bool) (left : α → Prop) (x x' : Exec α) : Prop where
  follows : ∀ m, m.discarded = false → x' m = (x m).map (noted mark)
  ends : ∀ m a m₁, m.discarded = false → x m = .ok (a, m₁) →
    m₁.discarded = true ∨ mark a = true → left a

/-- The marks of a computation that may fail. -/
def Run.marks (mark : α → Bool) : Run α → Bool
  | .ok a => mark a
  | .error _ => false

/-- The statement ends because something was discarded. -/
def Flow.isDiscard : Flow → Bool
  | .discard => true
  | _ => false

theorem Flow.eq_discard {flow : Flow} (h : flow.isDiscard = true) : flow = .discard := by
  cases flow <;> first | rfl | cases h

/-- Only outcomes for which the machine is marked are left after a discard, and only if there may be
one. -/
abbrev Exec.Halts (may : Prop) (mark : α → Bool) (x x' : Exec α) : Prop :=
  Exec.Heeds mark (fun a => may ∧ mark a = true) x x'

/-- The same for computations that may fail. -/
abbrev Eval.Halts (may : Prop) (mark : α → Bool) (x x' : Eval α) : Prop :=
  Exec.Heeds (Run.marks mark) (fun r => may ∧ ∀ a, r = .ok a → mark a = true) x.run x'.run

namespace Exec

variable {mark : α → Bool} {mark' : β → Bool} {left : α → Prop} {left' : β → Prop}
  {x x' : Exec α} {f f' : α → Exec β} {may : Prop}

theorem noted_of_not {a : α} {m : Machine} (h : mark a = false) : noted mark (a, m) = (a, m) := by
  unfold noted
  rw [h]
  rfl

theorem noted_of_mark {a : α} {m : Machine} (h : mark a = true) :
    noted mark (a, m) = (a, m.discarding) := by
  unfold noted
  rw [h]
  rfl

theorem discarding_of_discarded {m : Machine} (h : m.discarded = true) : m.discarding = m := by
  unfold Machine.discarding
  rw [← h]

theorem noted_of_discarded {a : α} {m : Machine} (h : m.discarded = true) :
    noted mark (a, m) = (a, m) := by
  unfold noted
  rw [discarding_of_discarded h, ite_self]

theorem heeds_pure {a : α} (h : mark a = false) : Heeds mark left (pure a) (pure a) where
  follows m _ := congrArg Except.ok (noted_of_not h).symm
  ends m b m₁ hm hrun := by
    cases hrun
    rw [hm, h]
    nofun

theorem Heeds.mono {other : α → Prop} (h : Heeds mark left x x') (hl : ∀ a, left a → other a) :
    Heeds mark other x x' where
  follows := h.follows
  ends m a m₁ hm hrun hd := hl a (h.ends m a m₁ hm hrun hd)

/-- A statement that begins where nothing has been discarded. -/
theorem Heeds.begun (stop : Fault) (h : Heeds mark left x x') :
    Heeds mark left x (begun stop x') where
  follows m hm := by
    rw [← h.follows m hm]
    unfold Exec.begun
    rw [hm]
    rfl
  ends := h.ends

/-- What follows goes on where nothing has been discarded, and passes on what is left else. -/
theorem Heeds.bind (hx : Heeds mark left x x')
    (hf : ∀ a, mark a = false → Heeds mark' left' (f a) (f' a))
    (hpass : ∀ a, left a → ∃ b, f a = pure b ∧ f' a = pure b ∧ mark' b = mark a ∧ left' b) :
    Heeds mark' left' (x >>= f) (x' >>= f') where
  follows m hm := by
    change (x' m >>= fun r => f' r.1 r.2) = (x m >>= fun r => f r.1 r.2).map _
    rw [hx.follows m hm]
    cases hrun : x m with
    | error fault => rfl
    | ok r =>
      obtain ⟨a, m₁⟩ := r
      change f' (noted mark (a, m₁)).1 (noted mark (a, m₁)).2 = (f a m₁).map (noted mark')
      by_cases hd : m₁.discarded = true ∨ mark a = true
      · obtain ⟨b, hb, hb', hm', -⟩ := hpass a (hx.ends m a m₁ hm hrun hd)
        rw [show (noted mark (a, m₁)).1 = a from rfl, hb, hb']
        change Except.ok (b, (noted mark (a, m₁)).2) = .ok (noted mark' (b, m₁))
        unfold noted
        rw [hm']
      · obtain ⟨hd, hmark⟩ := not_or.1 hd
        rw [Bool.not_eq_true] at hd hmark
        rw [noted_of_not hmark]
        exact (hf a hmark).follows m₁ hd
  ends m b m₂ hm hrun hd := by
    obtain ⟨a, m₁, h₁, h₂⟩ := bind_ok hrun
    by_cases hd₁ : m₁.discarded = true ∨ mark a = true
    · obtain ⟨c, hc, -, -, hleft⟩ := hpass a (hx.ends m a m₁ hm h₁ hd₁)
      rw [hc] at h₂
      cases h₂
      exact hleft
    · obtain ⟨hd₁, hmark⟩ := not_or.1 hd₁
      rw [Bool.not_eq_true] at hd₁ hmark
      exact (hf a hmark).ends m₁ b m₂ hd₁ h₂ hd

/-- What follows a statement goes on if nothing has been discarded, and hands a discard on. -/
theorem Halts.bind_flow {x x' : Exec Flow} {f f' : Flow → Exec β} {b : β}
    (hx : Halts may Flow.isDiscard x x')
    (hf : ∀ flow, flow.isDiscard = false → Heeds mark' left' (f flow) (f' flow))
    (hpass : f .discard = pure b) (hpass' : f' .discard = pure b) (hb : mark' b = true)
    (hleft : may → left' b) : Heeds mark' left' (x >>= f) (x' >>= f') :=
  hx.bind hf fun flow hflow => by
    obtain ⟨hmay, hflow⟩ := hflow
    obtain rfl := Flow.eq_discard hflow
    exact ⟨b, hpass, hpass', hb, hleft hmay⟩

/-- Changes of the machine around a computation that leave the mark alone. -/
theorem Heeds.around {g : Machine → Machine} {h : Machine → Machine → Machine}
    {x x' : Machine → Exec α} {y y' : Exec α} (hx : ∀ m, Heeds mark left (x m) (x' m))
    (hg : ∀ m, (g m).discarded = m.discarded) (hh : ∀ m n, (h m n).discarded = n.discarded)
    (hmarked : ∀ m n, h m n.discarding = (h m n).discarding)
    (hy : ∀ m, y m = (x m (g m)).map fun r => (r.1, h m r.2))
    (hy' : ∀ m, y' m = (x' m (g m)).map fun r => (r.1, h m r.2)) : Heeds mark left y y' where
  follows m hm := by
    rw [hy, hy', (hx m).follows _ ((hg m).trans hm)]
    cases x m (g m) with
    | error fault => rfl
    | ok r =>
      change Except.ok (r.1, h m (noted mark r).2) = .ok (noted mark (r.1, h m r.2))
      unfold noted
      cases hr : mark r.1 with
      | true => rw [if_pos rfl, if_pos rfl, hmarked]
      | false => rw [if_neg nofun, if_neg nofun]
  ends m a m₁ hm hrun hd := by
    rw [hy] at hrun
    cases hx₁ : x m (g m) with
    | error fault =>
      rw [hx₁] at hrun
      cases hrun
    | ok r =>
      rw [hx₁] at hrun
      cases hrun
      rw [hh] at hd
      exact (hx m).ends _ r.1 r.2 ((hg m).trans hm) hx₁ hd

theorem heeds_inScope {parent : ScopeId} {x x' : ScopeId → Exec α}
    (h : ∀ scope, Heeds mark left (x scope) (x' scope)) :
    Heeds mark left (inScope parent x) (inScope parent x') := by
  have around : ∀ (x : ScopeId → Exec α) m, inScope parent x m =
      (x m.scopes.depth (m.pushed parent)).map fun r => (r.1, r.2.popped m.scopes.depth) := by
    intro x m
    rw [inScope_apply]
    cases x m.scopes.depth (m.pushed parent) <;> rfl
  exact .around (g := fun m => m.pushed parent) (h := fun m n => n.popped m.scopes.depth)
    (fun m => h m.scopes.depth) (fun _ => rfl) (fun _ _ => rfl) (fun _ _ => rfl) (around x)
    (around x')

theorem heeds_nested {x x' : Exec α} (h : Heeds mark left x x') :
    Heeds mark left (nested x) (nested x') := by
  have around : ∀ (x : Exec α) m, nested x m =
      (x { m with callDepth := m.callDepth + 1 }).map fun r =>
        (r.1, { r.2 with callDepth := r.2.callDepth - 1 }) := by
    intro x m
    change (x { m with callDepth := m.callDepth + 1 } >>= fun r =>
      .ok (r.1, { r.2 with callDepth := r.2.callDepth - 1 })) = _
    cases x { m with callDepth := m.callDepth + 1 } <;> rfl
  exact .around (g := fun m => { m with callDepth := m.callDepth + 1 })
    (h := fun _ n => { n with callDepth := n.callDepth - 1 }) (fun _ => h) (fun _ => rfl)
    (fun _ _ => rfl) (fun _ _ => rfl) (around x) (around x')

/-- A scope that is closed afterwards. -/
theorem heeds_popScope {x x' : Exec α} (scope : ScopeId) (h : Heeds mark left x x') :
    Heeds mark left (x >>= fun a => popScope scope >>= fun _ => pure a)
      (x' >>= fun a => popScope scope >>= fun _ => pure a) := by
  have around : ∀ (x : Exec α) m, (x >>= fun a => popScope scope >>= fun _ => pure a : Exec α) m =
      (x m).map fun r => (r.1, r.2.popped scope) := by
    intro x m
    change (x m >>= fun r => .ok (r.1, r.2.popped scope)) = _
    cases x m <;> rfl
  exact .around (g := id) (h := fun _ n => n.popped scope) (fun _ => h) (fun _ => rfl)
    (fun _ _ => rfl) (fun _ _ => rfl) (around x) (around x')

end Exec

namespace Eval

variable {mark : α → Bool} {mark' : β → Bool} {x x' : Eval α} {f f' : α → Eval β} {may : Prop}

theorem halts_pure {a : α} (h : mark a = false) : Halts may mark (pure a) (pure a) :=
  Exec.heeds_pure h

theorem Halts.bind (hx : Halts may mark x x')
    (hf : ∀ a, mark a = false → Halts may mark' (f a) (f' a))
    (hpass : ∀ a, mark a = true → ∃ b, f a = pure b ∧ f' a = pure b ∧ mark' b = true) :
    Halts may mark' (x >>= f) (x' >>= f') := by
  unfold Halts
  rw [ExceptT.run_bind, ExceptT.run_bind]
  refine Exec.Heeds.bind hx (fun r hr => ?_) fun r hr => ?_
  · cases r with
    | ok a => exact hf a hr
    | error e => exact Exec.heeds_pure rfl
  · obtain ⟨hmay, hr⟩ := hr
    cases r with
    | ok a =>
      obtain ⟨b, hb, hb', hm⟩ := hpass a (hr a rfl)
      refine ⟨.ok b, congrArg ExceptT.run hb, congrArg ExceptT.run hb', ?_, hmay, ?_⟩
      · exact hm.trans (hr a rfl).symm
      · rintro c ⟨⟩
        exact hm
    | error e => exact ⟨.error e, rfl, rfl, rfl, hmay, nofun⟩

/-- What follows a statement goes on if nothing has been discarded, and hands a discard on. -/
theorem Halts.bind_flow {x x' : Eval Flow} {f f' : Flow → Eval β} {b : β}
    (hx : Halts may Flow.isDiscard x x')
    (hf : ∀ flow, flow.isDiscard = false → Halts may mark' (f flow) (f' flow))
    (hpass : f .discard = pure b) (hpass' : f' .discard = pure b) (hb : mark' b = true) :
    Halts may mark' (x >>= f) (x' >>= f') :=
  hx.bind hf fun flow hflow => by
    obtain rfl := Flow.eq_discard hflow
    exact ⟨b, hpass, hpass', hb⟩

/-- After a part that has no value once something is discarded. -/
theorem Halts.next (hx : Halts may (fun _ => false) x x')
    (hf : ∀ a, Halts may mark' (f a) (f' a)) : Halts may mark' (x >>= f) (x' >>= f') :=
  hx.bind (fun a _ => hf a) nofun

theorem halts_ofExec {x x' : Exec α} (h : Exec.Halts may mark x x') :
    Halts may mark (ofExec x) (ofExec x') := by
  have run_ofExec : ∀ x : Exec α, (ofExec x).run = x >>= fun a => pure (.ok a) := fun _ => rfl
  unfold Halts
  rw [run_ofExec, run_ofExec]
  refine h.bind (fun a ha => Exec.heeds_pure ha) fun a ha => ?_
  refine ⟨.ok a, rfl, rfl, rfl, ha.1, ?_⟩
  rintro b ⟨⟩
  exact ha.2

theorem halts_inBlock {scope : ScopeId} {body body' : ScopeId → Exec Flow}
    (h : ∀ scope, Exec.Halts may Flow.isDiscard (body scope) (body' scope)) :
    Halts may Flow.isDiscard (inBlock scope body) (inBlock scope body') :=
  halts_ofExec (Exec.heeds_inScope h)

theorem halts_inScope {scope : ScopeId} {x x' : ScopeId → Eval α}
    (h : ∀ scope, Halts may mark (x scope) (x' scope)) :
    Halts may mark (inScope scope x) (inScope scope x') :=
  Exec.heeds_inScope h

/-- The marks of a round: the loop ends because something was discarded. -/
def endsInDiscard (flow? : Option Flow) : Bool := flow?.any Flow.isDiscard

theorem halts_rounds {round round' : Eval (Option Flow)}
    (h : Halts may endsInDiscard round round') (n : Nat) :
    Halts may Flow.isDiscard (rounds round n) (rounds round' n) := by
  induction n with
  | zero => exact Exec.heeds_pure rfl
  | succ n ih =>
    refine h.bind (fun flow? hf => ?_) fun flow? hf => ?_
    · cases flow? with
      | some flow => exact halts_pure hf
      | none => exact ih
    · cases flow? with
      | some flow => exact ⟨flow, rfl, rfl, hf⟩
      | none => cases hf

/-- A round of a `while`. -/
theorem halts_whileRound {cond cond' : Eval Bool} {body body' : Eval Flow}
    (hcond : Halts may (fun _ => false) cond cond') (hbody : Halts may Flow.isDiscard body body') :
    Halts may endsInDiscard
      (do if ← cond then return afterBody (← body) else return some .normal)
      (do if ← cond' then return afterBody (← body') else return some .normal) := by
  refine hcond.next fun holds => ?_
  cases holds with
  | false => exact halts_pure rfl
  | true =>
    refine hbody.bind_flow (fun flow hflow => ?_) rfl rfl rfl
    cases flow <;> first | exact halts_pure rfl | cases hflow

/-- A round of a `for`: the update discards nothing. -/
theorem halts_forRound {cond cond' : Eval Bool} {body body' : Eval Flow} {update update' : Eval Unit}
    (hcond : Halts may (fun _ => false) cond cond') (hbody : Halts may Flow.isDiscard body body')
    (hupdate : Halts may (fun _ => false) update update') :
    Halts may endsInDiscard
      (do
        if ← cond then
          match afterBody (← body) with
          | some flow => return some flow
          | none =>
            update
            return none
        else return some .normal)
      (do
        if ← cond' then
          match afterBody (← body') with
          | some flow => return some flow
          | none =>
            update'
            return none
        else return some .normal) := by
  refine hcond.next fun holds => ?_
  cases holds with
  | false => exact halts_pure rfl
  | true =>
    refine hbody.bind_flow (fun flow hflow => ?_) rfl rfl rfl
    cases flow with
    | normal => exact hupdate.next fun _ => halts_pure rfl
    | continue_ => exact hupdate.next fun _ => halts_pure rfl
    | break_ => exact halts_pure rfl
    | return_ v => exact halts_pure rfl
    | discard => cases hflow

/-- A round of a `loop`: the body and what continues it, in one scope. -/
theorem halts_loopRound {scope : ScopeId} {body body' next next' : ScopeId → Exec Flow}
    (hbody : ∀ scope, Exec.Halts may Flow.isDiscard (body scope) (body' scope))
    (hnext : ∀ scope, Exec.Halts may Flow.isDiscard (next scope) (next' scope)) :
    Halts may endsInDiscard
      (ofExec do
        let flow ← Exec.inScope scope fun scope => do
          match ← body scope with
          | .normal => next scope
          | .continue_ => next scope
          | flow => return flow
        return afterBody flow)
      (ofExec do
        let flow ← Exec.inScope scope fun scope => do
          match ← body' scope with
          | .normal => next' scope
          | .continue_ => next' scope
          | flow => return flow
        return afterBody flow) := by
  refine halts_ofExec (Exec.Halts.bind_flow (Exec.heeds_inScope fun scope => ?_)
    (fun flow hflow => ?_) rfl rfl rfl fun hmay => ⟨hmay, rfl⟩)
  · refine (hbody scope).bind_flow (fun flow hflow => ?_) rfl rfl rfl fun hmay => ⟨hmay, rfl⟩
    cases flow with
    | normal => exact hnext scope
    | continue_ => exact hnext scope
    | discard => cases hflow
    | _ => exact Exec.heeds_pure rfl
  · cases flow with
    | discard => cases hflow
    | _ => exact Exec.heeds_pure rfl

/-- A `switch`: choosing the clause discards nothing. -/
theorem halts_chosen {chosen chosen' : Eval (Option Nat)} {clause clause' : Nat → Exec Flow}
    (hchosen : Halts may (fun _ => false) chosen chosen')
    (hclause : ∀ i, Exec.Halts may Flow.isDiscard (clause i) (clause' i)) :
    Halts may Flow.isDiscard
      (do
        match ← chosen with
        | none => return .normal
        | some i =>
          match ← ofExec (clause i) with
          | .break_ => return .normal
          | flow => return flow)
      (do
        match ← chosen' with
        | none => return .normal
        | some i =>
          match ← ofExec (clause' i) with
          | .break_ => return .normal
          | flow => return flow) := by
  refine hchosen.next fun chosen => ?_
  cases chosen with
  | none => exact halts_pure rfl
  | some i =>
    refine (halts_ofExec (hclause i)).bind_flow (fun flow hflow => ?_) rfl rfl rfl
    cases flow with
    | discard => cases hflow
    | _ => exact halts_pure rfl

/-- A statement ends because of a discard in it, whether the flow tells or the mark. -/
theorem halts_settled (line : Nat) {x x' : Eval Flow}
    (h : Exec.Heeds (Run.marks Flow.isDiscard) (fun _ => may) x.run x'.run) :
    Exec.Halts may Flow.isDiscard (settled line x) (settled line x') where
  follows m hm := by
    have followed := h.follows m hm
    cases hrun : x.run m with
    | error fault =>
      rw [hrun] at followed
      rw [settled_fault hrun, settled_fault followed]
      rfl
    | ok r =>
      obtain ⟨outcome, m₁⟩ := r
      rw [hrun] at followed
      cases hd : m₁.discarded with
      | true =>
        have ended : x'.run m = .ok (outcome, m₁) :=
          followed.trans (congrArg Except.ok (Exec.noted_of_discarded hd))
        rw [settled_discarded hrun hd, settled_discarded ended hd]
        exact congrArg Except.ok (Exec.noted_of_discarded hd).symm
      | false =>
        cases outcome with
        | error e =>
          rw [settled_error hrun hd, settled_error followed hd]
          rfl
        | ok flow =>
          cases hf : flow.isDiscard with
          | true =>
            have ended : x'.run m = .ok (.ok flow, m₁.discarding) :=
              followed.trans (congrArg Except.ok (Exec.noted_of_mark hf))
            obtain rfl := Flow.eq_discard hf
            rw [settled_ok hrun hd, settled_discarded ended rfl]
            rfl
          | false =>
            have ended : x'.run m = .ok (.ok flow, m₁) :=
              followed.trans (congrArg Except.ok (Exec.noted_of_not hf))
            rw [settled_ok hrun hd, settled_ok ended hd]
            exact congrArg Except.ok (Exec.noted_of_not hf).symm
  ends m flow m₂ hm hrun hd := by
    cases hx : x.run m with
    | error fault =>
      rw [settled_fault hx] at hrun
      cases hrun
    | ok r =>
      obtain ⟨outcome, m₁⟩ := r
      have ends := h.ends m outcome m₁ hm hx
      cases hd₁ : m₁.discarded with
      | true =>
        rw [settled_discarded hx hd₁] at hrun
        cases hrun
        exact ⟨ends (.inl hd₁), rfl⟩
      | false =>
        cases outcome with
        | error e =>
          rw [settled_error hx hd₁] at hrun
          cases hrun
          exact absurd (hd.resolve_right nofun) (by rw [hd₁]; nofun)
        | ok flow' =>
          rw [settled_ok hx hd₁] at hrun
          cases hrun
          have marked := hd.resolve_left (by rw [hd₁]; nofun)
          exact ⟨ends (.inr marked), marked⟩

/-- A statement made of a part that may fail. -/
theorem Halts.settled (line : Nat) {x x' : Eval Flow} (h : Halts may Flow.isDiscard x x') :
    Exec.Halts may Flow.isDiscard (settled line x) (settled line x') :=
  halts_settled line (h.mono fun _ hr => hr.1)

/-! ## Parts of statements -/

section

variable {s : Shader} {risky : String → Prop} {order : List String} {call call' : Caller}
  {scope : ScopeId} {x x' : Eval α}

theorem Ordered.discards (h : Ordered risky order x x') (hmay : ∀ n ∈ order, risky n → may)
    {m m₁ : Machine} {r : Run α} (hm : m.discarded = false) (hrun : x.run m = .ok (r, m₁))
    (hd : m₁.discarded = true) : may := by
  by_contra hnot
  have calm := h.calm fun n hn hr => hnot (hmay n hn hr)
  rw [calm m r m₁ hm hrun] at hd
  cases hd

theorem marks_never : Run.marks (fun _ : α => false) = fun _ => false := by
  funext r
  cases r <;> rfl

theorem map_noted_never (r : Except Fault (α × Machine)) :
    r.map (Exec.noted fun _ => false) = r := by
  cases r <;> rfl

/-- Nothing of the statement is left after its last call but what the discard stops anyway. -/
theorem heeds_of_ordered {g : α → Flow} (h : Ordered risky order x x')
    (hlast : ∀ n ∈ order.dropLast, ¬risky n) (hmay : ∀ n ∈ order, risky n → may)
    (hg : ∀ a, (g a).isDiscard = false) :
    Exec.Heeds (Run.marks Flow.isDiscard) (fun _ => may) (x >>= fun a => pure (g a)).run
      (x' >>= fun a => pure (g a)).run := by
  have first : Exec.Heeds (fun _ => false) (fun _ => may) x.run x'.run := by
    refine ⟨fun m hm => ?_, fun m r m₁ hm hrun hd => ?_⟩
    · rw [map_noted_never]
      exact h.agrees hlast m hm
    · exact h.discards hmay hm hrun (hd.resolve_right nofun)
  rw [ExceptT.run_bind, ExceptT.run_bind]
  refine first.bind (fun r _ => ?_) fun r hr => ?_
  · cases r with
    | ok a => exact Exec.heeds_pure (hg a)
    | error e => exact Exec.heeds_pure rfl
  · cases r with
    | ok a => exact ⟨.ok (g a), rfl, rfl, hg a, hr⟩
    | error e => exact ⟨.error e, rfl, rfl, rfl, hr⟩

/-- A part that discards nothing. -/
theorem halts_of_calm (h : Ordered risky order x x') (hcalm : ∀ n ∈ order, ¬risky n) :
    Halts may (fun _ => false) x x' where
  follows m hm := by
    rw [marks_never, map_noted_never]
    exact h.agrees (fun n hn => hcalm n (List.mem_of_mem_dropLast hn)) m hm
  ends m r m₁ hm hrun hd := by
    have undiscarded := h.calm hcalm m r m₁ hm hrun
    obtain hd | hd := hd
    · rw [undiscarded] at hd
      cases hd
    · cases r <;> cases hd

/-- A part that fails on values without a truth. -/
theorem halts_of_muted {x x' : Eval Value} {k : Value → Eval α} (h : Ordered risky order x x')
    (hlast : ∀ n ∈ order.dropLast, ¬risky n) (hmay : ∀ n ∈ order, risky n → may) (hx : Muted x)
    (hk : ∀ v, Exec.Calm (k v).run)
    (hnone : ∀ v, v.Hollow → ∀ m a m₁, (k v).run m ≠ .ok (.ok a, m₁)) :
    Halts may (fun _ => false) (x >>= k) (x' >>= k) where
  follows m hm := by
    rw [marks_never, map_noted_never]
    exact (h.bind_calm hk).agrees hlast m hm
  ends m r m₁ hm hrun hd := by
    have discarded : m₁.discarded = true := hd.resolve_right (by cases r <;> nofun)
    refine ⟨(h.bind_calm hk).discards hmay hm hrun discarded, fun a hr => ?_⟩
    subst hr
    obtain ⟨v, m₂, h₁, h₂⟩ := run_bind_ok hrun
    cases hd₂ : m₂.discarded with
    | true => exact absurd h₂ (hnone v (hx m v m₂ hm h₁ hd₂) m₂ a m₁)
    | false =>
      rw [hk v m₂ _ m₁ hd₂ h₂] at discarded
      cases discarded

end

end Eval

end Wgsl
