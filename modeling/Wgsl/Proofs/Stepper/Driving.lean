import Wgsl.Proofs.Reflect.Unbound
import Wgsl.Proofs.Stepper.Leading

/-! # Commands do what statements do

The commands of a statement, stepped over in a session, do what running the statement does. The run
and the session nest their scopes differently, so their machines are overlaid.

* `Arrives`, `Fails`: the session gets behind the commands when the run ends or reports an error.
* `Drives`, `EvalDrives`: so it is from wherever the machines are overlaid, unless stepping parts from
  running on the way.
* `yields_command`, `yields_test`: a command and the computation that it stands for.
-/

namespace Wgsl
set_option autoImplicit false

open Eval (settled condition)
open Overlay (Knows)

/-! ## Names that are known -/

section

variable {C : Correspondence} {S : String → Prop}

mutual

/-- An expression may run if the nodes in it may and the names in it may be read. -/
theorem Expr.admitted_of_uses : ∀ e : Expr, (∀ n ∈ e.nodes, n.Admitted C) →
    (∀ x, .variable_ x ∈ e.mentions → S x) → e.Admitted C S
  | .literal .., _, _ => trivial
  | .var _ name, _, hS => hS name (List.mem_singleton_self _)
  | .binary _ _ lhs rhs, h, hS => by
    rw [Expr.nodes, List.forall_mem_cons, List.forall_mem_append] at h
    rw [Expr.mentions] at hS
    exact ⟨lhs.admitted_of_uses h.2.1 fun x hx => hS x (List.mem_append_left _ hx),
      rhs.admitted_of_uses h.2.2 fun x hx => hS x (List.mem_append_right _ hx)⟩
  | .unary _ op operand, h, hS => by
    rw [Expr.nodes, List.forall_mem_cons] at h
    refine ⟨?_, operand.admitted_of_uses h.2 hS⟩
    rintro rfl
    exact h.1
  | .call _ name args, h, hS => by
    rw [Expr.nodes, List.forall_mem_cons] at h
    exact ⟨h.1, Expr.allAdmitted_of_uses args h.2 fun x hx => hS x (List.mem_cons_of_mem _ hx)⟩
  | .construct _ type args, h, hS => by
    rw [Expr.nodes, List.forall_mem_cons, List.forall_mem_append] at h
    exact Expr.allAdmitted_of_uses args h.2.2 fun x hx => hS x (List.mem_cons_of_mem _ hx)
  | .bitcast _ type value, h, hS => by
    rw [Expr.nodes, List.forall_mem_cons, List.forall_mem_append] at h
    exact value.admitted_of_uses h.2.2 fun x hx => hS x (List.mem_cons_of_mem _ hx)
  | .index _ base i, h, hS => by
    rw [Expr.nodes, List.forall_mem_cons, List.forall_mem_append] at h
    rw [Expr.mentions] at hS
    exact ⟨base.admitted_of_uses h.2.1 fun x hx => hS x (List.mem_append_left _ hx),
      i.admitted_of_uses h.2.2 fun x hx => hS x (List.mem_append_right _ hx)⟩
  | .member _ base _, h, hS => by
    rw [Expr.nodes, List.forall_mem_cons] at h
    exact base.admitted_of_uses h.2 hS
  | .group _ inner, h, hS => by
    rw [Expr.nodes, List.forall_mem_cons] at h
    exact inner.admitted_of_uses h.2 hS

theorem Expr.allAdmitted_of_uses : ∀ es : List Expr, (∀ n ∈ Expr.listNodes es, n.Admitted C) →
    (∀ x, .variable_ x ∈ Expr.listMentions es → S x) → Expr.AllAdmitted C S es
  | [], _, _ => trivial
  | e :: rest, h, hS => by
    rw [Expr.listNodes, List.forall_mem_append] at h
    rw [Expr.listMentions] at hS
    exact ⟨e.admitted_of_uses h.1 fun x hx => hS x (List.mem_append_left _ hx),
      Expr.allAdmitted_of_uses rest h.2 fun x hx => hS x (List.mem_append_right _ hx)⟩

end

theorem Expr.option_admitted_of_uses {e? : Option Expr}
    (h : ∀ n ∈ Expr.countNodes e?, n.Admitted C) (hS : ∀ x, (∃ e ∈ e?, e.Uses x) → S x) :
    ∀ e ∈ e?, e.Admitted C S := by
  rintro e rfl
  exact e.admitted_of_uses h fun x hx => hS x ⟨e, rfl, hx⟩

theorem SimpleStmt.admitted_of_uses {st : SimpleStmt} (h : ∀ n ∈ st.nodes, n.Admitted C)
    (hS : ∀ x, st.Uses x → S x) : st.action.Admitted C S := by
  unfold SimpleStmt.Uses SimpleStmt.mentions at hS
  unfold SimpleStmt.nodes at h
  cases ha : st.action with
  | declare kind v =>
    rw [ha] at h hS
    have nodes : ∀ n ∈ Expr.countNodes v.value, n.Admitted C := by
      change ∀ n ∈ v.nodes, n.Admitted C at h
      rw [VarDecl.nodes, List.forall_mem_append, List.forall_mem_append] at h
      exact h.1.2
    refine Expr.option_admitted_of_uses nodes fun x hx => hS x ?_
    obtain ⟨e, he, hx⟩ := hx
    change _ ∈ v.mentions
    rw [VarDecl.mentions, show v.value = some e from he]
    exact List.mem_append_left _ (List.mem_append_left _ hx)
  | assign op target value =>
    rw [ha] at h hS
    have parts := List.forall_mem_append.1 h
    refine ⟨Expr.option_admitted_of_uses parts.1 fun x hx => hS x ?_,
      value.admitted_of_uses parts.2 fun x hx => hS x (List.mem_append_right _ hx)⟩
    obtain ⟨e, rfl, hx⟩ := hx
    exact List.mem_append_left _ hx
  | increment op target =>
    rw [ha] at h hS
    exact target.admitted_of_uses h hS
  | call callee =>
    rw [ha] at h hS
    exact callee.admitted_of_uses h hS

end

namespace Overlay

variable {o : Overlay} {lax : Prop} {names : String → Prop} {m m' : Machine}

theorem settled_nil : o.settled [] = o := by
  simp [settled]

theorem settled_append (first second : List String) :
    (o.settled first).settled second = o.settled (first ++ second) := by
  unfold settled
  congr 1
  funext i n
  simp only [List.mem_append, eq_iff_iff]
  tauto

/-- What is known stays known. -/
theorem Knows.settled {name : String} (h : Knows lax o o.scope name) (list : List String) :
    Knows lax (o.settled list) o.scope name :=
  h.imp id fun fresh hs => fresh hs.1

theorem knows_settled {name : String} {list : List String} (h : name ∈ list) :
    Knows lax (o.settled list) o.scope name :=
  Or.inr fun hs => hs.2 ⟨rfl, h⟩

/-- The overlay behind statements that declare the names. They are known if the end is normal. -/
def behind (o : Overlay) (list : List String) : Flow → Overlay
  | .normal => o.settled list
  | _ => o

theorem behind_nil (flow : Flow) : o.behind [] flow = o := by
  cases flow with
  | normal => exact settled_nil
  | _ => rfl

theorem behind_of_ne {flow : Flow} (h : flow ≠ .normal) (list : List String) :
    o.behind list flow = o := by
  cases flow with
  | normal => exact absurd rfl h
  | _ => rfl

theorem Related.behind {list : List String} (h : Related lax names (o.settled list) m m')
    (flow : Flow) : Related lax names (o.behind list flow) m m' := by
  cases flow with
  | normal => exact h
  | _ => exact h.forget

/-- Both runs report an error. -/
theorem Related.reporting (h : Related lax names o m m') (hlax : ¬lax) {e e' : RunError}
    (he : e'.cause = e.cause) : Related lax names o (m.reporting e) (m'.reporting e') := by
  obtain ⟨clear, fits, causes⟩ := h
  exact .mk { clear with silent := fun hl => absurd hl hlax } fits (causes.push he)

/-- The line of an error makes no difference. -/
theorem Related.relined {e e' : RunError} (h : Related lax names o (m.reporting e) m')
    (he : e'.cause = e.cause) : Related lax names o (m.reporting e') m' := by
  generalize hn : m.reporting e = n at h
  obtain ⟨clear, fits, causes⟩ := h
  subst hn
  refine .mk (m := m.reporting e')
    { clear with silent := fun hl => absurd (clear.silent hl) Array.push_ne_empty } fits ?_
  have same : (m.reporting e').diagnostics.map RunError.cause =
      (m.reporting e).diagnostics.map RunError.cause := by
    simp only [Machine.reporting, Array.map_push, he]
  exact causes.trans same.symm

end Overlay

/-! ## Getting behind commands -/

/-- Stepping over the commands leads where the end of the statement leaves the frames, the target
being the position behind the commands. -/
def Arrives (base : Spot) (s : Shader) (R : Machine → Machine → Prop) (c : Surroundings) (p : Spot)
    (target : Nat) (start : Session) (flow : Flow) (m : Machine) : Prop :=
  m.discarded = false ∧ flow.Lands c ∧ ∃ m' k line, R m m' ∧ (flow = .normal → k = target) ∧
    start.Ends base s flow (p.standing m' k line)

/-- Stepping over the commands gets behind them with the error reported. -/
def Fails (base : Spot) (s : Shader) (R : Machine → Machine → Prop) (p : Spot) (target : Nat) (start : Session)
    (e : RunError) (m : Machine) : Prop :=
  m.discarded = false ∧ ∃ m' line, R (m.reporting e) m' ∧
    Session.Leads base s start (p.standing m' target line)

/-- The commands between two positions do what the computation does, which declares the names. -/
def Drives (lax : Prop) (base : Spot) (s : Shader) (names : String → Prop) (o : Overlay) (list : List String)
    (c : Surroundings) (p : Spot) (k target : Nat) (x : Exec Flow) : Prop :=
  ∀ m m' line, o.Related lax names m m' → x.Yields lax m fun flow m₁ =>
    (p.standing m' k line).Keeps lax base s
      (Arrives base s ((o.behind list flow).Related lax names) c p target (p.standing m' k line) flow m₁)

/-- The same of a computation that may fail. -/
def EvalDrives (lax : Prop) (base : Spot) (s : Shader) (names : String → Prop) (o : Overlay) (list : List String)
    (c : Surroundings) (p : Spot) (k target : Nat) (x : Eval Flow) : Prop :=
  ∀ m m' line, o.Related lax names m m' → Eval.Yields lax m x
    (fun flow m₁ => (p.standing m' k line).Keeps lax base s
      (Arrives base s ((o.behind list flow).Related lax names) c p target (p.standing m' k line) flow m₁))
    fun e m₁ => (p.standing m' k line).Keeps lax base s
      (Fails base s ((o.settled list).Related lax names) p target (p.standing m' k line) e m₁)

/-- The run and the session are in the same place. -/
structure Spot.Meets (p base : Spot) (o : Overlay) (c : Surroundings) : Prop where
  lies : p.Lies base c
  scope : p.frame.scope = o.scope'
  sight : ∀ n, o.sight o.scope n → c.names n

/-- The commands stand at the position. -/
def Spot.Holds (p : Spot) (k : Nat) (commands : List Command) : Prop :=
  commands <+: p.frame.commands.drop k

namespace Spot.Holds

variable {p : Spot} {k : Nat} {c : Command} {commands rest : List Command}

theorem head (h : p.Holds k (c :: rest)) : p.frame.commands[k]? = some c := by
  obtain ⟨tail, ht⟩ := h
  have first := congrArg List.head? ht
  rw [List.head?_drop] at first
  exact first.symm

theorem tail (h : p.Holds k (c :: rest)) : p.Holds (k + 1) rest := by
  obtain ⟨tail, ht⟩ := h
  refine ⟨tail, ?_⟩
  have dropped := congrArg List.tail ht
  rw [List.tail_drop] at dropped
  exact dropped

theorem left (h : p.Holds k (commands ++ rest)) : p.Holds k commands :=
  (List.prefix_append _ _).trans h

theorem right (h : p.Holds k (commands ++ rest)) : p.Holds (k + commands.length) rest := by
  obtain ⟨tail, ht⟩ := h
  refine ⟨tail, ?_⟩
  rw [← List.drop_drop, ← ht, List.append_assoc, List.drop_left]

theorem whole (p : Spot) : p.Holds 0 p.frame.commands := List.prefix_refl _

end Spot.Holds

section

variable {lax : Prop} {s : Shader} {names calls : String → Prop} {base : Spot} {o : Overlay}
  {c : Surroundings} {p : Spot} {k target : Nat} {R R' : Machine → Machine → Prop}
  {t t' : Session} {flow : Flow} {m m₁ m' : Machine} {list : List String} {e : RunError}

theorem Arrives.head (h : Arrives base s R c p target t' flow m) (ht : Session.Leads base s t t') :
    Arrives base s R c p target t flow m := by
  obtain ⟨calm, lands, m', k, line, hR, hk, ends⟩ := h
  exact ⟨calm, lands, m', k, line, hR, hk, ends.head ht⟩

/-- The position behind the commands matters for a normal end only. -/
theorem Arrives.elsewhere (h : Arrives base s R c p target t flow m) (hn : flow ≠ .normal)
    {target' : Nat} (hR : ∀ m', R m m' → R' m m') : Arrives base s R' c p target' t flow m := by
  obtain ⟨calm, lands, m', k, line, hm', -, hleads⟩ := h
  exact ⟨calm, lands, m', k, line, hR m' hm', fun e => absurd e hn, hleads⟩

theorem Fails.head (h : Fails base s R p target t' e m) (ht : Session.Leads base s t t') :
    Fails base s R p target t e m := by
  obtain ⟨calm, m', line, hR, hleads⟩ := h
  exact ⟨calm, m', line, hR, ht.trans hleads⟩

theorem arrives_normal {line : Nat} (calm : m.discarded = false) (hR : R m m')
    (h : Session.Leads base s t (p.standing m' target line)) : Arrives base s R c p target t .normal m :=
  ⟨calm, trivial, m', target, line, hR, fun _ => rfl, h⟩

/-- A statement that has failed ends normally once the error is reported. -/
theorem Fails.arrives (h : Fails base s R p target t e m) (hR : ∀ m', R (m.reporting e) m' →
    R' m₁ m') (calm : m₁.discarded = m.discarded) : Arrives base s R' c p target t .normal m₁ := by
  obtain ⟨quiet, m', line, hm', hleads⟩ := h
  exact arrives_normal (calm.trans quiet) (hR m' hm') hleads

theorem EvalDrives.settled {x : Eval Flow} (line : Nat)
    (h : EvalDrives lax base s names o list c p k target x) :
    Drives lax base s names o list c p k target (settled line x) := by
  intro m m' l hm
  refine Eval.yields_settled ((h m m' l hm).imp (fun flow m₁ keeps => ?_) ?_)
  · refine ⟨fun hd => keeps.imp fun arrives => ?_, fun _ => keeps⟩
    exact absurd (arrives.1.symm.trans hd) Bool.false_ne_true
  · intro e m₁ _ keeps
    refine ⟨fun hd => keeps.imp fun fails => ?_, fun _ => keeps.imp fun fails => ?_⟩
    · exact absurd (fails.1.symm.trans hd) Bool.false_ne_true
    · refine fails.arrives (fun m' hm' => ?_) rfl
      exact hm'.relined (RunError.cause_at e line)

theorem Drives.ofExec {x : Exec Flow} (h : Drives lax base s names o list c p k target x) :
    EvalDrives lax base s names o list c p k target (Eval.ofExec x) :=
  fun m m' l hm => Eval.yields_ofExec (h m m' l hm)

/-- Where something has been discarded already, stepping has parted from running. -/
theorem Overlay.Related.departs (h : o.Related lax names m m') (hd : m.discarded = true)
    (base p : Spot) (s : Shader) (k line : Nat) :
    ¬lax ∧ (p.standing m' k line).Departs base s := by
  have L := Overlay.lawful lax names fun _ => True
  have hlax : ¬lax := fun hlax => Bool.false_ne_true ((L.calm h hlax).symm.trans hd)
  exact ⟨hlax, .discards .refl ((L.discarded h).trans hd)⟩

theorem EvalDrives.of_calm {x : Eval Flow} (h : ∀ m m' line, m.discarded = false →
    o.Related lax names m m' → Eval.Yields lax m x
      (fun flow m₁ => (p.standing m' k line).Keeps lax base s
        (Arrives base s (o.Related lax names) c p target (p.standing m' k line) flow m₁))
      fun e m₁ => (p.standing m' k line).Keeps lax base s
        (Fails base s (o.Related lax names) p target (p.standing m' k line) e m₁)) :
    EvalDrives lax base s names o [] c p k target x := by
  intro m m' line hm
  rw [Overlay.settled_nil]
  cases hd : m.discarded with
  | true =>
    have departs := hm.departs hd base p s k line
    exact Eval.yields_of_all departs.1 (fun _ _ => Or.inl departs) fun _ _ => Or.inl departs
  | false =>
    refine (h m m' line hd hm).mono fun flow m₁ keeps => ?_
    rw [Overlay.behind_nil]
    exact keeps

/-- Nothing to be run. -/
theorem drives_nothing : Drives lax base s names o [] c p k k (pure .normal) := by
  intro m m' line hm
  cases hd : m.discarded with
  | true =>
    have departs := hm.departs hd base p s k line
    exact Exec.yields_of_all departs.1 fun _ _ => Or.inl departs
  | false =>
    refine Exec.yields_pure (fun _ => hd) (Or.inr ?_)
    rw [Overlay.behind_nil]
    exact arrives_normal hd hm .refl

/-- One computation behind another; only a normal end goes on. -/
theorem Drives.bind {x y : Exec Flow} {mid : Nat} {more : List String} {f : Flow → Exec Flow}
    (hx : Drives lax base s names o list c p k mid x)
    (hy : Drives lax base s names (o.settled list) more c p mid target y) (hf : f .normal = y)
    (hpure : ∀ flow, flow ≠ .normal → f flow = pure flow) (hs : y.Spoils) :
    Drives lax base s names o (list ++ more) c p k target (x >>= f) := by
  intro m m' line hm
  have spoils : ∀ flow, (f flow).Spoils := by
    intro flow
    by_cases hn : flow = .normal
    · rw [hn, hf]
      exact hs
    · rw [hpure flow hn]
      exact Exec.spoils_pure flow
  refine (hx m m' line hm).bind (fun flow m₁ calm keeps => ?_) spoils
  obtain ⟨hlax, departs⟩ | arrives := keeps
  · exact Exec.yields_of_all hlax fun _ _ => Or.inl ⟨hlax, departs⟩
  by_cases hn : flow = .normal
  · subst hn
    obtain ⟨-, -, m₁', k₁, line₁, hm₁, hk, hleads⟩ := arrives
    cases hk rfl
    rw [hf]
    refine (hy m₁ m₁' line₁ hm₁).mono fun flow m₂ keeps => (keeps.head hleads).imp fun arrives => ?_
    have arrives := arrives.head hleads
    by_cases hn : flow = .normal
    · subst hn
      rw [Overlay.behind, Overlay.settled_append] at arrives
      exact arrives
    · rw [Overlay.behind_of_ne hn] at arrives ⊢
      exact arrives.elsewhere hn fun m' hm' => hm'.forget
  · rw [hpure flow hn]
    rw [Overlay.behind_of_ne hn] at arrives
    refine Exec.yields_pure calm (Or.inr ?_)
    rw [Overlay.behind_of_ne hn]
    exact arrives.elsewhere hn fun _ hm' => hm'

/-! ## Commands -/

theorem run_bind_of {α β : Type} {x : Eval α} {f : α → Eval β} {a : α}
    (h : x.run m = .ok (.ok a, m₁)) : (x >>= f).run m = (f a).run m₁ := by
  rw [ExceptT.run_bind]
  change (x.run m >>= _) = _
  rw [h]
  rfl

theorem run_bind_of_error {α β : Type} {x : Eval α} {f : α → Eval β}
    (h : x.run m = .ok (.error e, m₁)) : (x >>= f).run m = .ok (.error e, m₁) := by
  rw [ExceptT.run_bind]
  change (x.run m >>= _) = _
  rw [h]
  rfl

theorem run_ofExec_of {α : Type} {x : Exec α} {a : α} (h : x m = .ok (a, m₁)) :
    (Eval.ofExec x).run m = .ok (.ok a, m₁) := by
  change (x >>= fun a => pure (.ok a) : Exec (Run α)) m = _
  change (x m >>= _) = _
  rw [h]
  rfl

/-- The command at the position is run, and stepping goes on with what it asks for. -/
def Asks (base : Spot) (s : Shader) (R : Machine → Machine → Prop) (p : Spot) (k : Nat) (cmd : Command)
    (start : Session) (move : Move) (m : Machine) : Prop :=
  m.discarded = false ∧ ∃ m', R m m' ∧
    start.Performs base s (Step.apply cmd.line move) (p.standing m' (k + 1) cmd.line)

variable {cmd : Command} {line : Nat} {move : Move}

theorem Asks.arrives (h : Asks base s R p k cmd t move m) (hl : p.Lies base c) (hlands : flow.Lands c)
    (hmove : move = flow.move) : Arrives base s R c p (k + 1) t flow m := by
  obtain ⟨calm, m', hm', performs⟩ := h
  subst hmove
  exact ⟨calm, hlands, m', k + 1, cmd.line, hm', fun _ => rfl, Spot.ends_of_performs performs hl hlands⟩

theorem Asks.fails (h : Asks base s R p k cmd t .next (m.reporting e)) : Fails base s R p (k + 1) t e m := by
  obtain ⟨calm, m', hm', performs⟩ := h
  exact ⟨calm, m', cmd.line, hm', performs.leads rfl⟩

variable (hmeets : p.Meets base o c) (hc : p.frame.commands[k]? = some cmd) (hshow : cmd.shows = true)

include hmeets hc hshow

/-- A command in which a called function discards. -/
theorem departs_of_run {m₁' : Machine} {outcome : Run Move} {P : Prop}
    (hm : o.Related lax names m m') {o₁ : Overlay} (hm₁ : o₁.Related lax names m₁ m₁')
    (hd : m₁.discarded = true)
    (hrun : (Eval.command s p.session.config o.scope' cmd).run m' = .ok (outcome, m₁')) :
    (p.standing m' k line).Keeps lax base s P := by
  have L := Overlay.lawful lax names fun _ => True
  have hlax : ¬lax := fun hlax => Bool.false_ne_true ((L.calm hm₁ hlax).symm.trans hd)
  rw [← hmeets.scope] at hrun
  have hd' := (L.discarded hm₁).trans hd
  have leads : Session.Leads base s (p.standing m' k line) _ :=
    Spot.leads_discarded hmeets.lies.on hc hshow hrun (L.callResults hm).2 (L.callResults hm₁).2 hd'
  exact Or.inl ⟨hlax, .discards leads hd'⟩

/-- A command that comes to an end. -/
theorem asks_of_run {m₁' : Machine} (hm : o.Related lax names m m') {o₁ : Overlay}
    (hm₁ : o₁.Related lax names m₁ m₁') (calm : m₁.discarded = false)
    (hrun : (Eval.command s p.session.config o.scope' cmd).run m' = .ok (.ok move, m₁')) :
    Asks base s (o₁.Related lax names) p k cmd (p.standing m' k line) move m₁ := by
  have L := Overlay.lawful lax names fun _ => True
  rw [← hmeets.scope] at hrun
  have quiet : m₁'.discarded = false := (L.discarded hm₁).trans calm
  exact ⟨calm, m₁', hm₁, Spot.performs_move hmeets.lies.on hc hshow hrun (L.callResults hm).2
    (L.callResults hm₁).2 quiet⟩

/-- A command and the computation that it stands for. -/
theorem yields_command (line : Nat) {α : Type} {Q : α → α → Prop} {x x' : Eval α} {f : α → Move}
    (hcmd : Eval.command s p.session.config o.scope' cmd = x' >>= fun a => pure (f a))
    (hx : (Overlay.correspondence lax names calls).EvalSim True o o Q x x')
    (hm : o.Related lax names m m') :
    Eval.Yields lax m x
      (fun a m₁ => (p.standing m' k line).Keeps lax base s (∃ a', Q a a' ∧
        Asks base s (o.Related lax names) p k cmd (p.standing m' k line) (f a') m₁))
      fun e m₁ => (p.standing m' k line).Keeps lax base s
        (Fails base s (o.Related lax names) p (k + 1) (p.standing m' k line) e m₁) := by
  have L := Overlay.lawful lax names calls
  refine (Overlay.yields_of_sim hx hm).imp (fun a m₁ h => ?_) fun e m₁ hlax h => ?_
  · obtain ⟨a', m₁', hrun, hQ, hm₁⟩ := h
    have run : (Eval.command s p.session.config o.scope' cmd).run m' = .ok (.ok (f a'), m₁') := by
      rw [hcmd, run_bind_of hrun]
      rfl
    cases hd : m₁.discarded with
    | true => exact departs_of_run hmeets hc hshow hm hm₁ hd run
    | false => exact Or.inr ⟨a', hQ, asks_of_run hmeets hc hshow hm hm₁ hd run⟩
  · obtain ⟨m₁', hrun, hm₁⟩ := h
    have run : (Eval.command s p.session.config o.scope' cmd).run m' = .ok (.error e, m₁') := by
      rw [hcmd, run_bind_of_error hrun]
    cases hd : m₁.discarded with
    | true => exact departs_of_run hmeets hc hshow hm hm₁ hd run
    | false =>
      rw [← hmeets.scope] at run
      refine Or.inr ⟨hd, _, cmd.line, hm₁.reporting hlax (RunError.cause_at e cmd.line), ?_⟩
      exact Spot.leads_error hmeets.lies.on hc hshow run (L.callResults hm).2 (L.callResults hm₁).2
        ((L.discarded hm₁).trans hd)

/-- A command that runs its statement as a whole. The ends that the statement may come to are those
after which the session goes on as the statement says. -/
theorem yields_whole (line : Nat) {P : Flow → Prop} (hP : ∀ flow, P flow → Eval.afterStatement flow = flow.move)
    (hnormal : P .normal) {x x' : Eval Flow} {l : Nat}
    (hcmd : Eval.command s p.session.config o.scope' cmd =
      Eval.ofExec (settled l x') >>= fun flow => pure (Eval.afterStatement flow))
    {o₁ : Overlay} (hx : (Overlay.correspondence lax names calls).EvalSim True o o₁
      (fun flow flow' => flow' = flow ∧ P flow) x x') (hm : o.Related lax names m m') :
    (settled l x).Yields lax m fun flow m₁ => (p.standing m' k line).Keeps lax base s
      (P flow ∧ Asks base s (o₁.Related lax names) p k cmd (p.standing m' k line) flow.move m₁) := by
  have L := Overlay.lawful lax names calls
  have run : ∀ {flow : Flow} {m₁ : Machine}, settled l x' m' = .ok (flow, m₁) →
      (Eval.command s p.session.config o.scope' cmd).run m' =
        .ok (.ok (Eval.afterStatement flow), m₁) := by
    intro flow m₁ h
    rw [hcmd, run_bind_of (run_ofExec_of h)]
    rfl
  refine Eval.yields_settled ((Overlay.yields_of_sim hx hm).imp (fun flow m₁ h => ?_)
    fun e m₁ hlax h => ?_)
  · obtain ⟨flow, m₁', hrun, ⟨rfl, hflow⟩, hm₁⟩ := h
    refine ⟨fun hd => ?_, fun hd => ?_⟩
    · have ran := run (Eval.settled_discarded hrun ((L.discarded hm₁).trans hd))
      exact departs_of_run hmeets hc hshow hm hm₁ hd ran
    · have ran := run (Eval.settled_ok hrun ((L.discarded hm₁).trans hd))
      rw [hP flow hflow] at ran
      exact Or.inr ⟨hflow, asks_of_run hmeets hc hshow hm hm₁ hd ran⟩
  · obtain ⟨m₁', hrun, hm₁⟩ := h
    refine ⟨fun hd => ?_, fun hd => ?_⟩
    · have ran := run (Eval.settled_discarded hrun ((L.discarded hm₁).trans hd))
      exact departs_of_run hmeets hc hshow hm hm₁ hd ran
    · have ran := run (Eval.settled_error hrun ((L.discarded hm₁).trans hd))
      exact Or.inr ⟨hnormal, asks_of_run hmeets hc hshow hm (hm₁.reporting hlax rfl) hd ran⟩

/-- Such a command behind which the names are declared. -/
theorem drives_whole {x x' : Eval Flow} {l : Nat}
    (hcmd : Eval.command s p.session.config o.scope' cmd =
      Eval.ofExec (settled l x') >>= fun flow => pure (Eval.afterStatement flow))
    {o₁ : Overlay} (ho : o₁ = o.settled list)
    (hx : (Overlay.correspondence lax names calls).EvalSim True o o₁
      (fun flow flow' => flow' = flow ∧ Eval.afterStatement flow = flow.move) x x') :
    Drives lax base s names o list c p k (k + 1) (settled l x) := by
  subst ho
  intro m m' line hm
  refine (yields_whole hmeets hc hshow line (fun _ h => h) rfl hcmd hx hm).mono fun flow m₁ keeps =>
    keeps.imp fun ⟨hmove, calm, m₁', hm₁, hleads⟩ => ?_
  have lands : flow.Lands c := by
    cases flow <;> trivial
  exact Asks.arrives ⟨calm, m₁', hm₁.behind flow, hleads⟩ hmeets.lies lands rfl

/-! ## Conditions -/

omit hmeets hc hshow in
theorem run_reportedCondition {scope : ScopeId} {e : Expr} {b : Bool}
    (h : (condition s (Eval.call s) scope e).run m = .ok (.ok b, m₁)) :
    Eval.reportedCondition s scope e m = .ok (b, m₁) := by
  change ((condition s (Eval.call s) scope e).run m >>= _) = _
  rw [h]
  rfl

omit hmeets hc hshow in
theorem run_reportedCondition_discarded {scope : ScopeId} {e : Expr} {err : RunError}
    (h : (condition s (Eval.call s) scope e).run m = .ok (.error err, m₁))
    (hd : m₁.discarded = true) : Eval.reportedCondition s scope e m = .ok (false, m₁) := by
  change ((condition s (Eval.call s) scope e).run m >>= _) = _
  rw [h]
  change (if m₁.discarded = true then _ else _ : Exec Bool) m₁ = _
  rw [if_pos hd]
  rfl

omit hmeets hc hshow in
theorem run_reportedCondition_error {scope : ScopeId} {e : Expr} {err : RunError}
    (h : (condition s (Eval.call s) scope e).run m = .ok (.error err, m₁))
    (hd : m₁.discarded = false) :
    Eval.reportedCondition s scope e m = .ok (false, m₁.reporting (err.at_ e.line)) := by
  change ((condition s (Eval.call s) scope e).run m >>= _) = _
  rw [h]
  change (if m₁.discarded = true then _ else _ : Exec Bool) m₁ = _
  rw [if_neg (by rw [hd]; exact Bool.false_ne_true)]
  rfl

/-- A command that decides by a condition. One that fails counts as one that does not hold. Stepping
parts from running only where a called function discards. -/
theorem yields_decision (line : Nat) {e : Expr} {f : Bool → Move}
    (hcmd : Eval.command s p.session.config o.scope' cmd =
      Eval.ofExec (Eval.reportedCondition s o.scope' e) >>= fun b => pure (f b))
    (hx : (Overlay.correspondence lax names calls).EvalSim True o o Eq
      (condition s (Eval.call s) o.scope e) (condition s (Eval.call s) o.scope' e))
    (hm : o.Related lax names m m') :
    Eval.Yields lax m (condition s (Eval.call s) o.scope e)
      (fun b m₁ => (m₁.discarded = true → (p.standing m' k line).Keeps lax base s False) ∧
        (m₁.discarded = false →
          Asks base s (o.Related lax names) p k cmd (p.standing m' k line) (f b) m₁))
      fun err m₁ => (m₁.discarded = true → (p.standing m' k line).Keeps lax base s False) ∧
        (m₁.discarded = false →
          (∃ n, (condition s (Eval.call s) o.scope' e).run m' = .ok (.error err, n) ∧
            n.discarded = false) ∧
          Asks base s (o.Related lax names) p k cmd (p.standing m' k line) (f false)
            (m₁.reporting err)) := by
  have L := Overlay.lawful lax names calls
  have run : ∀ {b : Bool} {m₁ : Machine}, Eval.reportedCondition s o.scope' e m' = .ok (b, m₁) →
      (Eval.command s p.session.config o.scope' cmd).run m' = .ok (.ok (f b), m₁) := by
    intro b m₁ h
    rw [hcmd, run_bind_of (run_ofExec_of h)]
    rfl
  refine (Overlay.yields_of_sim hx hm).imp (fun b m₁ h => ?_) fun err m₁ hlax h => ?_
  · obtain ⟨_, m₁', hrun, rfl, hm₁⟩ := h
    have ran := run (run_reportedCondition hrun)
    exact ⟨fun hd => departs_of_run hmeets hc hshow hm hm₁ hd ran,
      fun hd => asks_of_run hmeets hc hshow hm hm₁ hd ran⟩
  · obtain ⟨m₁', hrun, hm₁⟩ := h
    refine ⟨fun hd => ?_, fun hd => ?_⟩
    · have ran := run (run_reportedCondition_discarded hrun ((L.discarded hm₁).trans hd))
      exact departs_of_run hmeets hc hshow hm hm₁ hd ran
    · have calm := (L.discarded hm₁).trans hd
      have ran := run (run_reportedCondition_error hrun calm)
      refine ⟨⟨m₁', hrun, calm⟩, ?_⟩
      exact asks_of_run hmeets hc hshow hm (hm₁.reporting hlax (RunError.cause_at err e.line)) hd ran

/-- The same whether or not something is discarded. -/
theorem yields_test (line : Nat) {e : Expr} {f : Bool → Move}
    (hcmd : Eval.command s p.session.config o.scope' cmd =
      Eval.ofExec (Eval.reportedCondition s o.scope' e) >>= fun b => pure (f b))
    (hx : (Overlay.correspondence lax names calls).EvalSim True o o Eq
      (condition s (Eval.call s) o.scope e) (condition s (Eval.call s) o.scope' e))
    (hm : o.Related lax names m m') :
    Eval.Yields lax m (condition s (Eval.call s) o.scope e)
      (fun b m₁ => (p.standing m' k line).Keeps lax base s
        (Asks base s (o.Related lax names) p k cmd (p.standing m' k line) (f b) m₁))
      fun err m₁ => (p.standing m' k line).Keeps lax base s
        ((∃ n, (condition s (Eval.call s) o.scope' e).run m' = .ok (.error err, n) ∧
          n.discarded = false) ∧
        Asks base s (o.Related lax names) p k cmd (p.standing m' k line) (f false) (m₁.reporting err)) := by
  refine (yields_decision hmeets hc hshow line hcmd hx hm).imp (fun b m₁ h => ?_) fun err m₁ _ h => ?_
  all_goals
    cases hd : m₁.discarded with
    | true => exact (h.1 hd).imp False.elim
    | false => exact Or.inr (h.2 hd)

/-! ## Statements that are commands -/

/-- A statement that ends as the outcome of a computation says. -/
theorem evalDrives_command {α : Type} {Q : α → α → Prop} {x x' : Eval α} {f : α → Move}
    {h : α → Flow}
    (hcmd : Eval.command s p.session.config o.scope' cmd = x' >>= fun a => pure (f a))
    (hx : (Overlay.correspondence lax names calls).EvalSim True o o Q x x')
    (hQ : ∀ a a', Q a a' → f a' = (h a).move) (hl : ∀ a a', Q a a' → (h a).Lands c) :
    EvalDrives lax base s names o [] c p k (k + 1) (x >>= fun a => pure (h a)) := by
  intro m m' line hm
  rw [Overlay.settled_nil]
  refine (yields_command hmeets hc hshow line hcmd hx hm).bind (fun a m₁ calm keeps => ?_)
    fun _ => Eval.spoils_pure _
  refine Eval.yields_pure calm (keeps.imp fun ⟨a', hQa, asks⟩ => ?_)
  rw [Overlay.behind_nil]
  exact asks.arrives hmeets.lies (hl a a' hQa) (hQ a a' hQa)

/-- A statement that only says how it ends. -/
theorem drives_pure {l : Nat}
    (hcmd : Eval.command s p.session.config o.scope' cmd = pure flow.move) (hl : flow.Lands c) :
    Drives lax base s names o [] c p k (k + 1) (settled l (pure flow)) := by
  have sim : (Overlay.correspondence lax names fun _ => True).EvalSim True o o (fun _ _ => True)
      (pure ⟨⟩ : Eval PUnit) (pure ⟨⟩) := evalSim_pure fun _ => trivial
  refine EvalDrives.settled l ?_
  rw [← pure_bind PUnit.unit fun _ => (pure flow : Eval Flow)]
  exact evalDrives_command hmeets hc hshow (hcmd.trans (pure_bind _ _).symm) sim (fun _ _ _ => rfl)
    fun _ _ _ => hl

end

section

variable {lax : Prop} {s : Shader} {names calls : String → Prop} {base : Spot} {o : Overlay}
  {c : Surroundings} {p : Spot} {k : Nat}

variable (hcall : (Overlay.correspondence lax names calls).Answers s (Eval.call s) (Eval.call s))
  (hmeets : p.Meets base o c)

include hcall hmeets

theorem drives_simple {st : SimpleStmt} (hc : p.frame.commands[k]? = some (.simple st))
    (hn : ∀ n ∈ st.nodes, n.Admitted (Overlay.correspondence lax names calls))
    (hu : ∀ x, st.Uses x → Knows lax o o.scope x) (hd : ∀ n ∈ st.action.declares?, o.Declares n) :
    Drives lax base s names o st.action.declares?.toList c p k (k + 1)
      (Eval.simple s (Eval.call s) o.scope st) := by
  have action := Eval.evalSim_action (p := True) (w := o) (Overlay.lawful lax names calls) hcall
    (fun _ h => h) hd (SimpleStmt.admitted_of_uses hn hu)
  have same : (Overlay.correspondence lax names calls).after o st.action.declares? =
      o.settled st.action.declares?.toList := by
    cases st.action.declares? with
    | none => exact Overlay.settled_nil.symm
    | some n => rfl
  rw [same] at action
  have sim := evalSim_bind action fun _ _ => evalSim_pure
    (Q := fun flow flow' : Flow => flow' = flow ∧ Eval.afterStatement flow = flow.move)
    (a := .normal) fun _ => ⟨rfl, rfl⟩
  exact drives_whole hmeets hc rfl rfl rfl sim

theorem drives_return {line : Nat} {value : Option Expr}
    (hc : p.frame.commands[k]? = some (.return_ line value))
    (hn : ∀ n ∈ Expr.countNodes value, n.Admitted (Overlay.correspondence lax names calls))
    (hu : ∀ x, (∃ e ∈ value, e.Uses x) → Knows lax o o.scope x) :
    Drives lax base s names o [] c p k (k + 1)
      (Eval.stmt s (Eval.call s) o.scope (.return_ line value)) := by
  cases value with
  | none =>
    rw [Eval.stmt]
    have lands : Flow.Lands c (.return_ none) := trivial
    exact drives_pure hmeets hc rfl rfl lands
  | some e =>
    rw [Eval.stmt]
    have sim := Eval.evalSim_expr (w := o) (Overlay.lawful lax names calls) hcall (fun _ h => h) True
      e (e.admitted_of_uses hn fun x hx => hu x ⟨e, rfl, hx⟩)
    refine EvalDrives.settled line (evalDrives_command hmeets hc rfl rfl sim (fun v v' hv => ?_)
      fun _ _ _ => trivial)
    obtain ⟨rfl, -⟩ := (Overlay.faithful lax names calls).values_iff.1 hv
    rfl

theorem drives_constAssert {line : Nat} {cond : Expr}
    (hc : p.frame.commands[k]? = some (.constAssert line cond))
    (hn : ∀ n ∈ cond.nodes, n.Admitted (Overlay.correspondence lax names calls))
    (hu : ∀ x, cond.Uses x → Knows lax o o.scope x) :
    Drives lax base s names o [] c p k (k + 1)
      (Eval.stmt s (Eval.call s) o.scope (.constAssert line cond)) := by
  rw [Eval.stmt]
  have sim := Eval.evalSim_constAssert (p := True) (w := o) (Overlay.lawful lax names calls) hcall
    (fun _ h => h) (cond.admitted_of_uses hn hu)
  have sim := evalSim_bind sim fun _ _ => evalSim_pure
    (Q := fun flow flow' : Flow => flow' = flow ∧ Eval.afterStatement flow = flow.move)
    (a := .normal) fun _ => ⟨rfl, rfl⟩
  refine drives_whole hmeets hc rfl ?_ Overlay.settled_nil.symm sim
  rw [Eval.command, Eval.stmt]
  rfl

omit hcall in
theorem drives_discard {line : Nat} (hc : p.frame.commands[k]? = some (.discard line)) :
    Drives lax base s names o [] c p k (k + 1)
      (Eval.stmt s (Eval.call s) o.scope (.discard line)) := by
  rw [Eval.stmt]
  have sim : (Overlay.correspondence lax names fun _ => True).EvalSim True o o
      (fun flow flow' => flow' = flow ∧ Eval.afterStatement flow = flow.move)
      (pure .discard : Eval Flow) (pure .discard) := evalSim_pure fun _ => ⟨rfl, rfl⟩
  refine drives_whole hmeets hc rfl ?_ Overlay.settled_nil.symm sim
  rw [Eval.command, Eval.stmt]

theorem drives_breakIf {line : Nat} {cond : Expr}
    (hc : p.frame.commands[k]? = some (.breakIf line cond false)) (hb : c.breaks)
    (hn : ∀ n ∈ cond.nodes, n.Admitted (Overlay.correspondence lax names calls))
    (hu : ∀ x, cond.Uses x → Knows lax o o.scope x) :
    Drives lax base s names o [] c p k (k + 1)
      (Eval.stmt s (Eval.call s) o.scope (.breakIf line cond)) := by
  rw [Eval.stmt]
  have sim := Eval.evalSim_condition (p := True) (w := o) (Overlay.lawful lax names calls) hcall
    (fun _ h => h) (cond.admitted_of_uses hn hu)
  refine EvalDrives.settled line fun m m' l hm => ?_
  rw [Overlay.settled_nil]
  have test := yields_test (f := fun b => if b != false then .break_ else .next) hmeets hc rfl l rfl
    sim hm
  refine (test.imp (fun b m₁ keeps => keeps) fun e m₁ _ keeps =>
    keeps.imp fun fails => fails.2.fails).bind (fun b m₁ calm keeps => ?_) fun b => ?_
  · cases b with
    | true => exact Eval.yields_pure calm (keeps.imp fun asks => asks.arrives hmeets.lies hb rfl)
    | false =>
      refine Eval.yields_pure calm (keeps.imp fun asks => ?_)
      rw [Overlay.behind_nil]
      have lands : Flow.Lands c .normal := trivial
      exact asks.arrives hmeets.lies lands rfl
  · cases b <;> exact Eval.spoils_pure _

end

end Wgsl
