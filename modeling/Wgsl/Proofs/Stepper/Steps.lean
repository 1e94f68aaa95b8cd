import Mathlib.Tactic
import Wgsl.Proofs.Machine.Correspondence
import Wgsl.Stepper.Session

/-! # What one step does

A step of a session passes over commands that show nothing, ends frames and begins invocations until
it comes to a command that shows something, or to the end of the dispatch.

* `Session.Passes`: one thing that a step passes over.
* `Session.Stops`: how a step ends.
* `Step.within_ok`: every step passes over some things and stops.
-/

namespace Wgsl
set_option autoImplicit false

/-- Whether a step ends with this command. -/
def Command.shows : Command → Bool
  | .block _ | .jump _ | .loop .. => false
  | _ => true

namespace Session

/-- One command that shows nothing, the end of a frame, or the begin of an invocation. -/
inductive Passes (s : Shader) : Session → Session → Prop
  | start {t t' : Session} : t.frames = [] → Step.startInvocation s t = .ok (true, t') →
      Passes s t t'
  | finish {t t' : Session} {f : Frame} {rest : List Frame} : t.frames = f :: rest →
      f.next? = none → Step.endFrame f t = .ok ((), t') → Passes s t t'
  | jump {t : Session} {f : Frame} {rest : List Frame} {target : Nat} : t.frames = f :: rest →
      f.next? = some (.jump target) → Passes s t (t.onTop fun f => { f with cursor := target })
  | block {t : Session} {f : Frame} {rest : List Frame} {commands : List Command} :
      t.frames = f :: rest → f.next? = some (.block commands) →
      Passes s t ((t.onTop Frame.advanced).pushFrame .block commands)
  | loop {t : Session} {f : Frame} {rest : List Frame} {commands : List Command} {target : Nat} :
      t.frames = f :: rest → f.next? = some (.loop commands target) →
      Passes s t ((t.onTop Frame.advanced).pushFrame (.loop target) commands)

/-- How a step ends: it has run a command or entered a call of it, there is no invocation left, or
too much has been passed over. -/
inductive Stops (s : Shader) (enterCalls : Bool) : Session → Except Fault Bool → Session → Prop
  | ran {t t' : Session} {f : Frame} {rest : List Frame} {c : Command} : t.frames = f :: rest →
      f.next? = some c → c.shows = true → Step.visible s enterCalls f c t = .ok ((), t') →
      Stops s enterCalls t (.ok true) t'
  | done {t : Session} : t.frames = [] → Step.startInvocation s t = .ok (false, t) →
      Stops s enterCalls t (.ok false) t
  | exhausted {t : Session} :
      Stops s enterCalls t (.error (.dispatch (.noStatementReached maxSilentCommands))) t

end Session

namespace Step

variable {α β : Type} {s : Shader} {t t' : Session} {f : Frame} {rest : List Frame} {c : Command}

theorem bind_ok {x : Step α} {g : α → Step β} {b : β} (h : (x >>= g) t = .ok (b, t')) :
    ∃ a t₁, x t = .ok (a, t₁) ∧ g a t₁ = .ok (b, t') := by
  change (x t >>= fun r => g r.1 r.2) = _ at h
  cases hx : x t with
  | error e =>
    rw [hx] at h
    cases h
  | ok r =>
    rw [hx] at h
    exact ⟨r.1, r.2, rfl, h⟩

theorem onMachine_ok {x : Exec α} {a : α} (h : onMachine x t = .ok (a, t')) :
    ∃ m, x t.machine = .ok (a, m) ∧ t' = { t with machine := m } := by
  change (x t.machine >>= fun r => .ok (r.1, { t with machine := r.2 })) = _ at h
  cases hx : x t.machine with
  | error e =>
    rw [hx] at h
    cases h
  | ok r =>
    rw [hx] at h
    cases h
    exact ⟨r.2, rfl, rfl⟩

/-! ## Beginning an invocation -/

/-- The outermost frame of an invocation. -/
def entryFrame (plan : DispatchPlan) (scope : ScopeId) : Frame where
  kind := .function
  name := plan.entry.name
  function := some plan.entry
  commands := plan.entry.commands
  scope := scope
  line := plan.entry.startLine

/-- An invocation begins if there is one left; else nothing changes. -/
theorem startInvocation_ok {b : Bool} (h : startInvocation s t = .ok (b, t')) :
    (b = true ∧ ∃ plan scope m, t.plan = some plan ∧ t.nextInvocation < plan.invocationCount ∧
      Exec.beginInvocation s plan t.nextInvocation t.machine = .ok (scope, m) ∧
      t' = { t with
        machine := m
        nextInvocation := t.nextInvocation + 1
        invocationScope := some scope
        frames := entryFrame plan scope :: t.frames }) ∨
    (b = false ∧ t' = t ∧ ∀ plan, t.plan = some plan → plan.invocationCount ≤ t.nextInvocation) := by
  obtain ⟨t₀, t₁, h₀, h⟩ := bind_ok h
  cases h₀
  obtain hp | ⟨plan, hp⟩ := Option.eq_none_or_eq_some t.plan
  · rw [hp] at h
    cases h
    exact Or.inr ⟨rfl, rfl, fun plan h => by cases hp.symm.trans h⟩
  · rw [hp] at h
    dsimp only at h
    split at h
    · rename_i spent
      cases h
      refine Or.inr ⟨rfl, rfl, fun plan' h => ?_⟩
      cases hp.symm.trans h
      exact spent
    · rename_i left
      obtain ⟨scope, t₂, h₂, h⟩ := bind_ok h
      obtain ⟨m, hm, rfl⟩ := onMachine_ok h₂
      cases h
      exact Or.inl ⟨rfl, plan, scope, m, hp, Nat.lt_of_not_le left, hm, rfl⟩

/-! ## Whole steps -/

/-- A step passes over what shows nothing and stops. -/
theorem within_ok {enterCalls : Bool} {budget : Nat} {r : Except Fault Bool}
    (h : within s enterCalls budget t = .ok (r, t')) :
    ∃ t₁, Relation.ReflTransGen (Session.Passes s) t t₁ ∧ Session.Stops s enterCalls t₁ r t' := by
  induction budget generalizing t with
  | zero =>
    cases h
    exact ⟨_, .refl, .exhausted⟩
  | succ budget ih =>
    have onward : ∀ {t₁ : Session}, Session.Passes s t t₁ →
        within s enterCalls budget t₁ = .ok (r, t') →
        ∃ t₁, Relation.ReflTransGen (Session.Passes s) t t₁ ∧
          Session.Stops s enterCalls t₁ r t' := by
      intro t₁ hpass h
      obtain ⟨t₂, hrun, hstop⟩ := ih h
      exact ⟨t₂, .head hpass hrun, hstop⟩
    rw [within] at h
    obtain ⟨_, _, h₀, h⟩ := bind_ok h
    cases h₀
    cases hf : t.frames with
    | nil =>
      rw [hf] at h
      obtain ⟨b, t₁, h₁, h⟩ := bind_ok h
      cases b with
      | true => exact onward (.start hf h₁) h
      | false =>
        cases h
        obtain ⟨habs, -⟩ | ⟨-, rfl, -⟩ := startInvocation_ok h₁
        · cases habs
        · exact ⟨_, .refl, .done hf h₁⟩
    | cons f rest =>
      rw [hf] at h
      dsimp only at h
      cases hc : f.next? with
      | none =>
        rw [hc] at h
        obtain ⟨_, t₁, h₁, h⟩ := bind_ok h
        exact onward (.finish hf hc h₁) h
      | some c =>
        rw [hc] at h
        have stop : c.shows = true → (visible s enterCalls f c >>= fun _ =>
            pure (.ok true)) t = .ok (r, t') → ∃ t₁,
            Relation.ReflTransGen (Session.Passes s) t t₁ ∧ Session.Stops s enterCalls t₁ r t' := by
          intro hshows h
          obtain ⟨_, t₁, h₁, h⟩ := bind_ok h
          cases h
          exact ⟨t, .refl, .ran hf hc hshows h₁⟩
        cases c with
        | jump target => exact onward (.jump hf hc) h
        | block commands => exact onward (.block hf hc) h
        | loop commands target => exact onward (.loop hf hc) h
        | _ => exact stop rfl h

/-! ## Running a command -/

/-- The frame of a function that is stepped into. -/
def callFrame (call : PendingCall) (scope : ScopeId) : Frame where
  kind := .function
  name := call.function.name
  function := some call.function
  commands := call.function.commands
  scope := scope
  call := some call.id
  line := call.function.startLine

/-- The machine after an error has been reported. -/
def reported (m : Machine) (e : RunError) : Machine :=
  { m with diagnostics := m.diagnostics.push e }

/-- Stepping into the first call of a command: there is none, or its arguments fail, or its frame is
opened. -/
theorem enterCall_ok {b : Bool} (hf : t.frames = f :: rest)
    (h : enterCall s f c t = .ok (b, t')) :
    (c.pendingCall? s f.knows = none ∧ b = false ∧ t' = t) ∨
    (∃ call e m, c.pendingCall? s f.knows = some call ∧
      bindPending s f call t.machine = .ok (.error e, m) ∧ b = false ∧
      t' = { t with
        machine := reported m (e.at_ call.line)
        frames := f.note call.id .void :: rest }) ∨
    (∃ call scope m, c.pendingCall? s f.knows = some call ∧
      bindPending s f call t.machine = .ok (.ok scope, m) ∧ b = true ∧
      t' = { t with machine := m, frames := callFrame call scope :: t.frames }) := by
  unfold enterCall at h
  cases hp : c.pendingCall? s f.knows with
  | none =>
    rw [hp] at h
    cases h
    exact Or.inl ⟨rfl, rfl, rfl⟩
  | some call =>
    rw [hp] at h
    refine Or.inr ?_
    obtain ⟨outcome, t₁, h₁, h⟩ := bind_ok h
    obtain ⟨m, hm, rfl⟩ := onMachine_ok h₁
    cases outcome with
    | error e =>
      obtain ⟨_, t₂, h₂, h⟩ := bind_ok h
      obtain ⟨_, t₃, h₃, h⟩ := bind_ok h
      obtain ⟨m', hm', rfl⟩ := onMachine_ok h₃
      cases h₂
      cases hm'
      cases h
      refine Or.inl ⟨call, e, m, rfl, hm, rfl, ?_⟩
      unfold Session.onTop
      dsimp only
      rw [hf]
      rfl
    | ok scope =>
      obtain ⟨_, t₂, h₂, h⟩ := bind_ok h
      cases h₂
      cases h
      exact Or.inr ⟨call, scope, m, rfl, hm, rfl, rfl⟩

/-- The innermost frame once its command has been taken. -/
def taken (f : Frame) (c : Command) : Frame := { f.advanced with line := c.line, results := [] }

/-- A command runs with the outcomes kept for its calls; what it asks for is done unless it fails or
the invocation has ended. -/
theorem runVisible_ok (hf : t.frames = f :: rest) (h : runVisible s f c t = .ok ((), t')) :
    ∃ outcome m, (Eval.command s t.config f.scope c).run { t.machine with callResults := f.results } =
        .ok (outcome, m) ∧
      let t₁ : Session := { t with
        machine := { m with callResults := [] }
        frames := taken f c :: rest }
      if m.discarded then t' = t₁.endInvocation
      else match outcome with
        | .ok move => apply c.line move t₁ = .ok ((), t')
        | .error e => t' = { t₁ with machine := reported t₁.machine (e.at_ c.line) } := by
  unfold runVisible at h
  obtain ⟨_, t₁, h₁, h⟩ := bind_ok h
  have top : t₁ = { t with frames := taken f c :: rest } := by
    cases h₁
    unfold Session.onTop
    rw [hf]
    rfl
  subst top
  obtain ⟨_, _, h₂, h⟩ := bind_ok h
  cases h₂
  obtain ⟨outcome, t₂, h₂, h⟩ := bind_ok h
  obtain ⟨m₂, hm₂, rfl⟩ := onMachine_ok h₂
  obtain ⟨_, m₀, hm₀, hm₂⟩ := Exec.bind_ok hm₂
  obtain ⟨outcome', m, hm, hm₂⟩ := Exec.bind_ok hm₂
  obtain ⟨_, m₃, hm₃, hm₂⟩ := Exec.bind_ok hm₂
  cases hm₀
  cases hm₃
  cases hm₂
  obtain ⟨_, _, h₃, h⟩ := bind_ok h
  cases h₃
  change (if m.discarded then _ else _ : Step Unit) _ = _ at h
  refine ⟨outcome, m, hm, ?_⟩
  split
  · rename_i hd
    rw [if_pos hd] at h
    cases h
    rfl
  · rename_i hd
    rw [if_neg hd] at h
    cases outcome with
    | ok move => exact h
    | error e =>
      obtain ⟨m', hm', rfl⟩ := onMachine_ok h
      cases hm'
      rfl

/-- The call that no longer waits leaves its frame on top, and that frame's command runs. -/
theorem runVisible_of_top {f₁ : Frame} {t₁ : Session} (hf : t₁.frames = f₁ :: rest)
    (h : (get >>= fun t => match t.frames with
      | [] => pure ()
      | f :: _ => runVisible s f c : Step Unit) t₁ = .ok ((), t')) :
    runVisible s f₁ c t₁ = .ok ((), t') := by
  obtain ⟨_, _, h₁, h⟩ := bind_ok h
  cases h₁
  rw [hf] at h
  exact h

/-- A visible command is entered by a call or run; arguments that fail have been reported before. -/
theorem visible_ok {enterCalls : Bool} (hf : t.frames = f :: rest)
    (h : visible s enterCalls f c t = .ok ((), t')) :
    (∃ call scope m, enterCalls = true ∧ c.pendingCall? s f.knows = some call ∧
      bindPending s f call t.machine = .ok (.ok scope, m) ∧
      t' = { t with machine := m, frames := callFrame call scope :: t.frames }) ∨
    (∃ call e m, enterCalls = true ∧ c.pendingCall? s f.knows = some call ∧
      bindPending s f call t.machine = .ok (.error e, m) ∧
      runVisible s (f.note call.id .void) c { t with
        machine := reported m (e.at_ call.line)
        frames := f.note call.id .void :: rest } = .ok ((), t')) ∨
    ((enterCalls = true → c.pendingCall? s f.knows = none) ∧
      runVisible s f c t = .ok ((), t')) := by
  unfold visible at h
  cases enterCalls with
  | false => exact Or.inr (Or.inr ⟨fun he => (Bool.false_ne_true he).elim, runVisible_of_top hf h⟩)
  | true =>
    rw [if_pos rfl] at h
    obtain ⟨b, t₁, h₁, h₂⟩ := bind_ok h
    obtain ⟨hnone, rfl, rfl⟩ | ⟨call, e, m, hcall, hm, rfl, rfl⟩ | ⟨call, scope, m, hcall, hm, rfl, rfl⟩ :=
      enterCall_ok hf h₁
    · exact Or.inr (Or.inr ⟨fun _ => hnone, runVisible_of_top hf h₂⟩)
    · exact Or.inr (Or.inl ⟨call, e, m, rfl, hcall, hm, runVisible_of_top rfl h₂⟩)
    · cases h₂
      exact Or.inl ⟨call, scope, m, rfl, hcall, hm, rfl⟩

/-- The innermost function ends: its scope is closed and its value goes to the frame below, or the
invocation ends with it. -/
theorem finishCall_ok {value : Option Value} (h : finishCall value t = .ok ((), t')) :
    ((Session.unwind t.machine.scopes t.frames).2 = none ∧
      t' = { t.withScopes (Session.unwind t.machine.scopes t.frames).1 with frames := [] }) ∨
    (∃ scopes f callers v m, Session.unwind t.machine.scopes t.frames = (scopes, some (f, callers)) ∧
      frameValue f value { t.machine with scopes } = .ok (v, m) ∧
      t' = if callers = [] then Session.endInvocation { t with machine := m, frames := [] }
        else Session.onTop (fun caller => f.call.elim caller fun id => caller.note id v)
          { t with machine := { m with scopes := m.scopes.pop f.scope }, frames := callers }) := by
  unfold finishCall at h
  obtain ⟨_, _, h₀, h⟩ := bind_ok h
  cases h₀
  rcases hu : Session.unwind t.machine.scopes t.frames with ⟨scopes, _ | ⟨f, callers⟩⟩
  · rw [hu] at h
    cases h
    exact Or.inl ⟨rfl, rfl⟩
  · rw [hu] at h
    obtain ⟨_, t₁, h₁, h⟩ := bind_ok h
    cases h₁
    obtain ⟨v, t₂, h₂, h⟩ := bind_ok h
    obtain ⟨m, hm, rfl⟩ := onMachine_ok h₂
    refine Or.inr ⟨scopes, f, callers, v, m, rfl, hm, ?_⟩
    cases callers with
    | nil =>
      cases h
      rfl
    | cons caller callers =>
      obtain ⟨_, t₃, h₃, h⟩ := bind_ok h
      obtain ⟨m', hm', rfl⟩ := onMachine_ok h₃
      cases hm'
      rw [if_neg (List.cons_ne_nil _ _)]
      cases hcall : f.call with
      | none =>
        rw [hcall] at h
        cases h
        rfl
      | some id =>
        rw [hcall] at h
        cases h
        rfl

end Step

end Wgsl
