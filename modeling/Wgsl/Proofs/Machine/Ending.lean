import Wgsl.Proofs.Machine.Overlaid

/-! # What computations come to

What is known of a computation if it comes to an end: of every end, or only of those by which no error
has been reported. Reported errors stay, so a run that ends without one has been silent all along, and
each of its parts has succeeded.

* `Exec.Spoils`: reported errors stay.
* `Exec.Yields`, `Eval.Yields`: what holds once a computation has ended.
* `Overlay.yields_of_sim`: a run has a second beside it.
-/

namespace Wgsl
set_option autoImplicit false

open Correspondence

variable {α β : Type} {m : Machine} {lax : Prop}

/-- Reported errors stay. -/
def Exec.Spoils (x : Exec α) : Prop :=
  ∀ m a m₁, x m = .ok (a, m₁) → m.diagnostics ≠ #[] → m₁.diagnostics ≠ #[]

/-- If the computation ends, the property holds of the end. A lax claim is made only if nothing has been
reported by then; nothing is discarded then either. -/
def Exec.Yields (lax : Prop) (m : Machine) (x : Exec α) (P : α → Machine → Prop) : Prop :=
  ∀ a m₁, x m = .ok (a, m₁) → (lax → m₁.diagnostics = #[]) → (lax → m₁.discarded = false) ∧ P a m₁

/-- The outcome has one of two properties. A lax claim says nothing of errors. -/
def Run.Meets (lax : Prop) (P : α → Machine → Prop) (E : RunError → Machine → Prop) (outcome : Run α)
    (m : Machine) : Prop :=
  match outcome with
  | .ok a => P a m
  | .error e => ¬lax → E e m

/-- The same where a computation may fail. -/
def Eval.Yields (lax : Prop) (m : Machine) (x : Eval α) (P : α → Machine → Prop)
    (E : RunError → Machine → Prop) : Prop :=
  Exec.Yields lax m x.run (Run.Meets lax P E)

/-- The machine after a report. -/
def Machine.reporting (m : Machine) (e : RunError) : Machine :=
  { m with diagnostics := m.diagnostics.push e }

/-! ## Reports stay -/

namespace Exec

theorem spoils_pure (a : α) : Spoils (pure a) := by
  intro m b m₁ e hm
  cases e
  exact hm

theorem spoils_bind {x : Exec α} {f : α → Exec β} (hx : x.Spoils) (hf : ∀ a, (f a).Spoils) :
    (x >>= f).Spoils := by
  intro m b m₂ e hm
  obtain ⟨a, m₁, h₁, h₂⟩ := bind_ok e
  exact hf a m₁ b m₂ h₂ (hx m a m₁ h₁ hm)

theorem spoils_inScope {parent : ScopeId} {x : ScopeId → Exec α} (h : ∀ scope, (x scope).Spoils) :
    (inScope parent x).Spoils := by
  intro m a m₂ e hm
  rw [inScope_apply] at e
  cases hx : x m.scopes.depth (m.pushed parent) with
  | error err =>
    rw [hx] at e
    cases e
  | ok r =>
    rw [hx] at e
    cases e
    exact h _ (m.pushed parent) r.1 r.2 hx hm

end Exec

namespace Eval

theorem spoils_pure (a : α) : Exec.Spoils (pure a : Eval α).run := Exec.spoils_pure _

theorem spoils_bind {x : Eval α} {f : α → Eval β} (hx : Exec.Spoils x.run)
    (hf : ∀ a, Exec.Spoils (f a).run) : Exec.Spoils (x >>= f).run := by
  rw [ExceptT.run_bind]
  refine Exec.spoils_bind hx fun outcome => ?_
  cases outcome with
  | ok a => exact hf a
  | error e => exact Exec.spoils_pure _

theorem spoils_ofExec {x : Exec α} (h : x.Spoils) : Exec.Spoils (ofExec x).run :=
  Exec.spoils_bind h fun _ => Exec.spoils_pure _

theorem spoils_rounds {round : Eval (Option Flow)} (h : Exec.Spoils round.run) (n : Nat) :
    Exec.Spoils (rounds round n).run := by
  induction n with
  | zero => exact Exec.spoils_pure _
  | succ n ih =>
    refine spoils_bind h fun ending => ?_
    cases ending with
    | some flow => exact spoils_pure flow
    | none => exact ih

end Eval

/-! ## Ends -/

namespace Exec

variable {P Q : α → Machine → Prop} {R : β → Machine → Prop} {x : Exec α} {f : α → Exec β}

theorem yields_pure {a : α} (hm : lax → m.discarded = false) (h : P a m) : Yields lax m (pure a) P := by
  intro b m₁ e _
  cases e
  exact ⟨hm, h⟩

/-- What holds of every end. -/
theorem yields_of_all (hlax : ¬lax) (h : ∀ a m₁, P a m₁) : Yields lax m x P :=
  fun a m₁ _ _ => ⟨fun hl => absurd hl hlax, h a m₁⟩

theorem Yields.mono (h : Yields lax m x P) (hPQ : ∀ a m₁, P a m₁ → Q a m₁) : Yields lax m x Q :=
  fun a m₁ e hm₁ => (h a m₁ e hm₁).imp id (hPQ a m₁)

/-- If the whole is silent, the first part is. -/
theorem Yields.bind (h : Yields lax m x P)
    (hf : ∀ a m₁, (lax → m₁.discarded = false) → P a m₁ → Yields lax m₁ (f a) R)
    (hs : ∀ a, (f a).Spoils) : Yields lax m (x >>= f) R := by
  intro b m₂ e hm₂
  obtain ⟨a, m₁, h₁, h₂⟩ := bind_ok e
  have hm₁ : lax → m₁.diagnostics = #[] := by
    intro hlax
    by_contra hne
    exact hs a m₁ b m₂ h₂ hne (hm₂ hlax)
  obtain ⟨calm, ha⟩ := h a m₁ h₁ hm₁
  exact hf a m₁ calm ha b m₂ h₂ hm₂

theorem yields_inScope {parent : ScopeId} {x : ScopeId → Exec α}
    (h : Yields lax (m.pushed parent) (x m.scopes.depth) fun a m₁ => P a (m₁.popped m.scopes.depth)) :
    Yields lax m (inScope parent x) P := by
  intro a m₂ e hm₂
  rw [inScope_apply] at e
  cases hx : x m.scopes.depth (m.pushed parent) with
  | error err =>
    rw [hx] at e
    cases e
  | ok r =>
    rw [hx] at e
    cases e
    exact h r.1 r.2 hx hm₂

end Exec

namespace Eval

variable {P Q : α → Machine → Prop} {R : β → Machine → Prop} {E F : RunError → Machine → Prop}
  {x : Eval α} {f : α → Eval β}

theorem yields_pure {a : α} (hm : lax → m.discarded = false) (h : P a m) :
    Yields lax m (pure a) P E :=
  Exec.yields_pure hm h

theorem yields_throw {e : RunError} (hm : lax → m.discarded = false) (h : ¬lax → E e m) :
    Yields lax m (throw e) P E :=
  Exec.yields_pure hm h

theorem yields_of_all (hlax : ¬lax) (h : ∀ a m₁, P a m₁) (hE : ∀ e m₁, E e m₁) :
    Yields lax m x P E := by
  refine Exec.yields_of_all hlax fun outcome m₁ => ?_
  cases outcome with
  | ok a => exact h a m₁
  | error e => exact fun _ => hE e m₁

theorem Yields.imp (h : Yields lax m x P E) (hPQ : ∀ a m₁, P a m₁ → Q a m₁)
    (hEF : ∀ e m₁, ¬lax → E e m₁ → F e m₁) : Yields lax m x Q F := by
  refine Exec.Yields.mono h fun outcome m₁ => ?_
  cases outcome with
  | ok a => exact hPQ a m₁
  | error e => exact fun he hlax => hEF e m₁ hlax (he hlax)

theorem Yields.mono (h : Yields lax m x P E) (hPQ : ∀ a m₁, P a m₁ → Q a m₁) : Yields lax m x Q E :=
  h.imp hPQ fun _ _ _ he => he

theorem Yields.bind (h : Yields lax m x P E)
    (hf : ∀ a m₁, (lax → m₁.discarded = false) → P a m₁ → Yields lax m₁ (f a) R E)
    (hs : ∀ a, Exec.Spoils (f a).run) : Yields lax m (x >>= f) R E := by
  unfold Yields
  rw [ExceptT.run_bind]
  refine Exec.Yields.bind h (fun outcome m₁ calm ha => ?_) fun outcome => ?_
  · cases outcome with
    | ok a => exact hf a m₁ calm ha
    | error e => exact Exec.yields_pure calm ha
  · cases outcome with
    | ok a => exact hs a
    | error e => exact Exec.spoils_pure _

theorem yields_ofExec {x : Exec α} (h : Exec.Yields lax m x P) : Yields lax m (ofExec x) P E := by
  change Exec.Yields lax m (x >>= fun a => pure (Except.ok a) : Exec (Run α)) (Run.Meets lax P E)
  exact h.bind (fun _ _ calm ha => Exec.yields_pure calm ha) fun _ => Exec.spoils_pure _

/-- A statement that has failed has been reported, unless a call has discarded. -/
theorem yields_settled {line : Nat} {x : Eval Flow} {P : Flow → Machine → Prop}
    (h : Yields lax m x
      (fun flow m₁ => (m₁.discarded = true → P .discard m₁) ∧ (m₁.discarded = false → P flow m₁))
      fun e m₁ => (m₁.discarded = true → P .discard m₁) ∧
        (m₁.discarded = false → P .normal (m₁.reporting (e.at_ line)))) :
    Exec.Yields lax m (settled line x) P := by
  intro flow m₂ e hm₂
  cases hx : x.run m with
  | error fault =>
    rw [settled_fault hx] at e
    cases e
  | ok r =>
    obtain ⟨outcome, m₁⟩ := r
    cases hd : m₁.discarded with
    | true =>
      rw [settled_discarded hx hd] at e
      cases e
      obtain ⟨calm, ha⟩ := h _ _ hx hm₂
      have hlax : ¬lax := fun hlax => Bool.false_ne_true ((calm hlax).symm.trans hd)
      cases outcome with
      | ok flow' => exact ⟨calm, ha.1 hd⟩
      | error err => exact ⟨calm, (ha hlax).1 hd⟩
    | false =>
      cases outcome with
      | ok flow' =>
        rw [settled_ok hx hd] at e
        cases e
        obtain ⟨calm, ha⟩ := h _ _ hx hm₂
        exact ⟨calm, ha.2 hd⟩
      | error err =>
        rw [settled_error hx hd] at e
        cases e
        have hlax : ¬lax := fun hlax => Array.push_ne_empty (hm₂ hlax)
        obtain ⟨-, ha⟩ := h _ _ hx fun hl => absurd hl hlax
        exact ⟨fun hl => absurd hl hlax, (ha hlax).2 hd⟩

theorem yields_inScope {parent : ScopeId} {x : ScopeId → Eval α}
    (h : Yields lax (m.pushed parent) (x m.scopes.depth)
      (fun a m₁ => P a (m₁.popped m.scopes.depth)) fun e m₁ => E e (m₁.popped m.scopes.depth)) :
    Yields lax m (inScope parent x) P E := by
  refine Exec.yields_inScope (Exec.Yields.mono h fun outcome m₁ => ?_)
  cases outcome with
  | ok a => exact id
  | error e => exact id

end Eval

/-! ## Statements -/

section

variable {names : String → Prop} {s : Shader} {call : Caller}
  (hcall : (solo names).Answers s call call) (scope : ScopeId)

include hcall

theorem Eval.spoils_stmts {body : List Stmt}
    (h : ∀ n ∈ Stmt.listNodes body, n.Admitted (solo names)) :
    (stmts s call scope body).Spoils :=
  (sim_stmts (lawful_solo names) hcall body True (some scope) (fun _ => True) nofun (fun _ h => h)
    (Stmt.allAdmitted_of_nodes body _ ⟨fun _ => True, True, True⟩ (fun _ => trivial) h
      fun hl => hl.elim)).spoils

theorem Eval.spoils_block {body : List Stmt}
    (h : ∀ n ∈ Stmt.listNodes body, n.Admitted (solo names)) :
    Exec.Spoils (inBlock scope fun scope => stmts s call scope body).run :=
  (evalSim_block (lawful_solo names) (w := some scope) (p := True) (S := fun _ => True)
    (fun w hi hS => sim_stmts (lawful_solo names) hcall body True w (fun _ => True) hi hS
      (Stmt.allAdmitted_of_nodes body _ ⟨fun _ => True, True, True⟩ (fun _ => trivial) h
        fun hl => hl.elim)) (fun _ h => h)).spoils

theorem Eval.spoils_continuingPart {body : Option (List Stmt)}
    (h : ∀ n ∈ Stmt.blockNodes body, n.Admitted (solo names)) :
    (continuingPart s call scope body).Spoils :=
  (sim_continuingPart (lawful_solo names) hcall body True (some scope) (fun _ => True) nofun
    (fun _ h => h) (Stmt.partAdmitted_of_nodes body _ ⟨fun _ => True, True, True⟩
      (fun _ => trivial) h fun hl => hl.elim)).spoils

theorem Eval.spoils_elseChain {rest : ElseChain}
    (h : ∀ n ∈ rest.nodes, n.Admitted (solo names)) :
    Exec.Spoils (elseChain s call scope rest).run :=
  (evalSim_elseChain (lawful_solo names) hcall rest True (some scope) (fun _ => True)
    (fun _ h => h) (ElseChain.admitted_of_nodes rest _ ⟨fun _ => True, True, True⟩
      (fun _ => trivial) h fun hl => hl.elim)).spoils

theorem Eval.spoils_clauseAt {clauses : List SwitchClause} (i : Nat)
    (h : ∀ n ∈ SwitchClause.listNodes clauses, n.Admitted (solo names)) :
    (clauseAt s call scope clauses i).Spoils :=
  (sim_clauseAt (lawful_solo names) hcall clauses True (some scope) (fun _ => True) i
    (fun _ h => h) (SwitchClause.allAdmitted_of_nodes clauses _ ⟨fun _ => True, True, True⟩
      (fun _ => trivial) h fun hl => hl.elim)).spoils

theorem Eval.spoils_goesOn {cond : Option Expr}
    (h : ∀ n ∈ Expr.countNodes cond, n.Admitted (solo names)) :
    Exec.Spoils (goesOn s call scope cond).run :=
  (evalSim_goesOn (p := True) (w := some scope) (S := fun _ => True) (lawful_solo names) hcall
    (fun _ h => h) (Expr.option_admitted_of_nodes (fun _ => trivial) h)).spoils

theorem Eval.spoils_header {st? : Option SimpleStmt}
    (h : ∀ n ∈ st?.elim [] SimpleStmt.nodes, n.Admitted (solo names)) :
    (header s call scope st?).Spoils :=
  (sim_header (p := True) (w := some scope) (S := fun _ => True) (lawful_solo names) hcall
    (fun _ h => h) nofun (SimpleStmt.option_admitted_of_nodes (fun _ => trivial) h)).spoils

end

/-! ## A second run beside the first -/

namespace Overlay

variable {names calls : String → Prop} {o o₁ : Overlay} {m' : Machine} {Q : α → α → Prop}

/-- The run of a computation that two runs have in common. -/
theorem yields_of_sim {x x' : Eval α}
    (h : (correspondence lax names calls).EvalSim True o o₁ Q x x') (hm : o.Related lax names m m') :
    Eval.Yields lax m x
      (fun a m₁ =>
        ∃ a' m₁', x'.run m' = .ok (.ok a', m₁') ∧ Q a a' ∧ o₁.Related lax names m₁ m₁')
      fun e m₁ => ∃ m₁', x'.run m' = .ok (.error e, m₁') ∧ o₁.Related lax names m₁ m₁' := by
  intro outcome m₁ e hm₁
  have followed := h.follows trivial m m' hm
  rw [e] at followed
  have ends := followed.resolve_left fun spoilt => spoilt.2 (hm₁ spoilt.1)
  cases outcome with
  | ok a =>
    obtain ⟨a', m₁', he, hQ, hrel⟩ := ends
    exact ⟨(lawful lax names calls).calm hrel, a', m₁', he, hQ, hrel⟩
  | error err =>
    obtain ⟨hlax, calm⟩ | ⟨m₁', he, hrel⟩ := ends
    · exact ⟨fun _ => calm, fun hl => absurd hlax hl⟩
    · exact ⟨(lawful lax names calls).calm hrel, fun _ => ⟨m₁', he, hrel⟩⟩

end Overlay

end Wgsl
