import Wgsl.Proofs.Machine.Interpreter

/-! # Statements and calls in two runs

The same statements, run from corresponding machines, end in corresponding machines.

* `Stmt.Admitted`: the statement reads names that it may read, given the names declared before it.
* `Eval.sim_stmts`: by induction over the syntax, one case for each form.
* `Eval.answers_callWithin`: by induction over the depth of calls.
-/

namespace Wgsl
set_option autoImplicit false

open Correspondence
open Value (rename)

/-! ## What may run -/

/-- The name that a simple statement declares. -/
def Action.declares? : Action → Option String
  | .declare _ v => some v.name
  | _ => none

/-- The name that a statement declares in the scope it runs in. -/
def Stmt.declares? : Stmt → Option String
  | .simple st => st.action.declares?
  | _ => none

/-- A set of names and the name of a declaration. -/
def withName (S : String → Prop) (name? : Option String) (name : String) : Prop :=
  S name ∨ some name = name?

/-- The simple statement reads names of the set. -/
def Action.Admitted (C : Correspondence) (S : String → Prop) : Action → Prop
  | .declare _ v => ∀ e ∈ v.value, e.Admitted C S
  | .assign _ target value => (∀ e ∈ target, e.Admitted C S) ∧ value.Admitted C S
  | .increment _ target => target.Admitted C S
  | .call callee => callee.Admitted C S

mutual

/-- The statement reads names of the set, besides those that it declares itself. A `continuing` part
may run before the body of its loop has declared anything. -/
def Stmt.Admitted (C : Correspondence) (S : String → Prop) : Stmt → Prop
  | .simple st => st.action.Admitted C S
  | .ifElse _ cond body rest =>
    cond.Admitted C S ∧ Stmt.AllAdmitted C S body ∧ ElseChain.Admitted C S rest
  | .forLoop _ init cond update body =>
    (∀ st ∈ init, st.action.Admitted C S) ∧
      (∀ e ∈ cond, e.Admitted C (withName S (init.bind fun st => st.action.declares?))) ∧
      (∀ st ∈ update, st.action.Admitted C (withName S (init.bind fun st => st.action.declares?))) ∧
      Stmt.AllAdmitted C (withName S (init.bind fun st => st.action.declares?)) body
  | .whileLoop _ cond body => cond.Admitted C S ∧ Stmt.AllAdmitted C S body
  | .loop _ body continuing => Stmt.AllAdmitted C S body ∧ Stmt.PartAdmitted C S continuing
  | .switch _ selector clauses => selector.Admitted C S ∧ SwitchClause.AllAdmitted C S clauses
  | .block _ body => Stmt.AllAdmitted C S body
  | .return_ _ value => ∀ e ∈ value, e.Admitted C S
  | .breakIf _ cond => cond.Admitted C S
  | .discard _ => ¬C.lax
  | .constAssert _ cond => cond.Admitted C S
  | .break_ _ | .continue_ _ => True

def Stmt.AllAdmitted (C : Correspondence) (S : String → Prop) : List Stmt → Prop
  | [] => True
  | st :: rest => Stmt.Admitted C S st ∧ Stmt.AllAdmitted C (withName S st.declares?) rest

def Stmt.PartAdmitted (C : Correspondence) (S : String → Prop) : Option (List Stmt) → Prop
  | none => True
  | some body => Stmt.AllAdmitted C S body

def ElseChain.Admitted (C : Correspondence) (S : String → Prop) : ElseChain → Prop
  | .none => True
  | .else_ body => Stmt.AllAdmitted C S body
  | .elseIf _ cond body rest =>
    cond.Admitted C S ∧ Stmt.AllAdmitted C S body ∧ ElseChain.Admitted C S rest

def SwitchClause.AllAdmitted (C : Correspondence) (S : String → Prop) : List SwitchClause → Prop
  | [] => True
  | .mk _ selectors _ body :: rest =>
    Expr.AllAdmitted C S selectors ∧ Stmt.AllAdmitted C S body ∧ SwitchClause.AllAdmitted C S rest

end

theorem SwitchClause.admitted_selectors {C : Correspondence} {S : String → Prop}
    {clauses : List SwitchClause} (h : SwitchClause.AllAdmitted C S clauses) :
    ∀ c ∈ clauses, Expr.AllAdmitted C S c.selectors := by
  induction clauses with
  | nil => exact fun c hc => absurd hc List.not_mem_nil
  | cons d rest ih =>
    obtain ⟨line, selectors, isDefault, body⟩ := d
    exact List.forall_mem_cons.2 ⟨h.1, ih h.2.2⟩

namespace Correspondence

variable (C : Correspondence)

/-- The world after a declaration, if there is one. -/
def after (w : C.World) (name? : Option String) : C.World := name?.elim w (C.declare w)

variable {C} (L : C.Lawful) {w : C.World} {name? : Option String}

include L

theorem scope_after : C.scope (C.after w name?) = C.scope w := by
  cases name? with
  | none => rfl
  | some name => exact L.scope_declare w name

theorem scope'_after : C.scope' (C.after w name?) = C.scope' w := by
  cases name? with
  | none => rfl
  | some name => exact L.scope'_declare w name

theorem inner_after (h : C.inner w) : C.inner (C.after w name?) := by
  cases name? with
  | none => exact h
  | some name => exact L.inner_declare name h

theorem rel_of_after {m m' : Machine} (h : C.rel (C.after w name?) m m') : C.rel w m m' := by
  cases name? with
  | none => exact h
  | some name => exact L.weaken name h

theorem sees_after {S : String → Prop} (hi : C.inner w) (hS : ∀ n, S n → C.sees w n) :
    ∀ n, withName S name? n → C.sees (C.after w name?) n := by
  intro n hn
  cases name? with
  | none =>
    obtain hn | hn := hn
    · exact hS n hn
    · cases hn
  | some name =>
    obtain hn | hn := hn
    · exact L.sees_declare name (hS n hn)
    · cases hn
      exact L.sees_declared n hi

end Correspondence

/-! ## How statements end -/

/-- The end of a statement with other names in it. -/
def Flow.rename (ρ : Renaming) : Flow → Flow
  | .return_ value => .return_ (value.map (Value.rename ρ))
  | flow => flow

namespace Correspondence

variable (C : Correspondence)

/-- Ends that stand for each other. In a lax correspondence nothing is discarded. -/
def flows (f f' : Flow) : Prop :=
  f' = f.rename C.across ∧ f.rename C.within = f ∧ (f = .discard → ¬C.lax)

/-- Ends of a round of a loop that stand for each other. -/
def endings (f f' : Option Flow) : Prop :=
  f' = f.map (Flow.rename C.across) ∧ f.map (Flow.rename C.within) = f ∧
    (f = some .discard → ¬C.lax)

/-- Arguments by name that stand for each other. -/
def arguments (names : List String)
    (a a' : List (String × Value)) : Prop :=
  a' = a.map (Prod.map id (rename C.across)) ∧
    (∀ x ∈ a, x.2.rename C.within = x.2) ∧ a.map Prod.fst = names

variable {C}

theorem flows_normal : C.flows .normal .normal := ⟨rfl, rfl, nofun⟩

theorem flows_break : C.flows .break_ .break_ := ⟨rfl, rfl, nofun⟩

theorem flows_continue : C.flows .continue_ .continue_ := ⟨rfl, rfl, nofun⟩

theorem flows_return_none : C.flows (.return_ none) (.return_ none) := ⟨rfl, rfl, nofun⟩

theorem flows_return {v v' : Value} (h : C.values v v') :
    C.flows (.return_ (some v)) (.return_ (some v')) := by
  obtain ⟨rfl, hv⟩ := h
  refine ⟨rfl, ?_, nofun⟩
  rw [Flow.rename, Option.map_some, hv]

theorem flows_discard (h : ¬C.lax) : C.flows .discard .discard := ⟨rfl, rfl, fun _ => h⟩

theorem endings_none : C.endings none none := ⟨rfl, rfl, nofun⟩

theorem endings_some {f f' : Flow} (h : C.flows f f') : C.endings (some f) (some f') := by
  obtain ⟨rfl, hf, hlax⟩ := h
  refine ⟨rfl, ?_, fun e => hlax (Option.some.inj e)⟩
  rw [Option.map_some, hf]

theorem endings_afterBody {f f' : Flow} (h : C.flows f f') :
    C.endings (Eval.afterBody f) (Eval.afterBody f') := by
  have whole := h
  obtain ⟨rfl, -⟩ := h
  cases f with
  | normal => exact endings_none
  | continue_ => exact endings_none
  | break_ => exact endings_some flows_normal
  | return_ v => exact endings_some whole
  | discard => exact endings_some whole

end Correspondence

namespace Eval

/-! ## Reported errors -/

section

variable {line : Nat} {x : Eval Flow} {m m₁ : Machine}

theorem settled_fault {f : Fault} (h : x.run m = .error f) : settled line x m = .error f := by
  change (x.run m >>= _) = _
  rw [h]
  rfl

theorem settled_discarded {outcome : Run Flow} (h : x.run m = .ok (outcome, m₁))
    (hd : m₁.discarded = true) : settled line x m = .ok (.discard, m₁) := by
  change (x.run m >>= _) = _
  rw [h]
  change (if m₁.discarded = true then _ else _ : Exec Flow) m₁ = _
  rw [if_pos hd]
  rfl

theorem settled_ok {flow : Flow} (h : x.run m = .ok (.ok flow, m₁)) (hd : m₁.discarded = false) :
    settled line x m = .ok (flow, m₁) := by
  change (x.run m >>= _) = _
  rw [h]
  change (if m₁.discarded = true then _ else _ : Exec Flow) m₁ = _
  rw [if_neg (by rw [hd]; exact Bool.false_ne_true)]
  rfl

theorem settled_error {e : RunError} (h : x.run m = .ok (.error e, m₁)) (hd : m₁.discarded = false) :
    settled line x m =
      .ok (.normal, { m₁ with diagnostics := m₁.diagnostics.push (e.at_ line) }) := by
  change (x.run m >>= _) = _
  rw [h]
  change (if m₁.discarded = true then _ else _ : Exec Flow) m₁ = _
  rw [if_neg (by rw [hd]; exact Bool.false_ne_true)]
  rfl

/-- So many rounds of a loop go on, from one machine to another. -/
inductive GoesOn (round : Eval (Option Flow)) : Nat → Machine → Machine → Prop
  | none (m : Machine) : GoesOn round 0 m m
  | more {k : Nat} {m m₁ m₂ : Machine} (first : round.run m = .ok (.ok .none, m₁))
      (rest : GoesOn round k m₁ m₂) : GoesOn round (k + 1) m m₂

/-- The error of a loop that is abandoned. -/
def abandoned : RunError :=
  .other ("loop abandoned after " ++ toString maxLoopIterations ++ " iterations")

/-- A loop whose rounds go on is abandoned after the last one. By induction on the rounds. -/
theorem rounds_goesOn {round : Eval (Option Flow)} {k : Nat} (h : GoesOn round k m m₁) :
    (rounds round k).run m = .ok (.error abandoned, m₁) := by
  induction h with
  | none m => rfl
  | more first _ ih =>
    rw [rounds, ExceptT.run_bind]
    exact (Exec.bind_of_ok first).trans ih

/-- Its error is reported where nothing has been discarded. -/
theorem settled_goesOn {round : Eval (Option Flow)} (line : Nat)
    (h : GoesOn round (maxLoopIterations + 1) m m₁) (hkept : m₁.discarded = false) :
    settled line (repeated round) m = .ok (.normal,
      { m₁ with diagnostics := m₁.diagnostics.push (abandoned.at_ line) }) := by
  have ended : (repeated round).run m = .ok (.error abandoned, m₁) := rounds_goesOn h
  exact settled_error ended hkept

end

section

variable {C : Correspondence} (L : C.Lawful) {α : Type} {p : Prop} {w w₁ : C.World} {s : Shader}
  {call call' : Caller} {S : String → Prop}

include L

theorem sim_settled (line : Nat) {x x' : Eval Flow} (h : C.EvalSim p w w₁ C.flows x x') :
    C.Sim p w w₁ C.flows (settled line x) (settled line x') where
  spoils m flow m₁ e hm := by
    cases hx : x.run m with
    | error f =>
      rw [settled_fault hx] at e
      cases e
    | ok r =>
      obtain ⟨outcome, m₂⟩ := r
      have hm₂ := h.spoils m outcome m₂ hx hm
      cases hd : m₂.discarded with
      | true =>
        rw [settled_discarded hx hd] at e
        cases e
        exact hm₂
      | false =>
        cases outcome with
        | ok f =>
          rw [settled_ok hx hd] at e
          cases e
          exact hm₂
        | error err =>
          rw [settled_error hx hd] at e
          cases e
          exact Array.push_ne_empty
  follows hp m m' hm := by
    have first := h.follows hp m m' hm
    cases hx : x.run m with
    | error f =>
      rw [hx] at first
      rw [settled_fault hx]
      exact first.imp id settled_fault
    | ok r =>
      obtain ⟨outcome, m₂⟩ := r
      rw [hx] at first
      cases hd : m₂.discarded with
      | true =>
        rw [settled_discarded hx hd]
        refine first.imp id fun hR => ?_
        -- a machine that has discarded belongs to a strict correspondence
        have strict : ∀ m', C.rel w₁ m₂ m' → ¬C.lax := fun m' hm hlax => by
          rw [L.calm hm hlax] at hd
          cases hd
        cases outcome with
        | ok flow =>
          obtain ⟨flow', m₂', h', -, hm₂⟩ := hR
          exact ⟨_, _, settled_discarded h' ((L.discarded hm₂).trans hd), flows_discard (strict _ hm₂), hm₂⟩
        | error e =>
          obtain ⟨-, hcalm⟩ | ⟨m₂', h', hm₂⟩ := hR
          · rw [hcalm] at hd
            cases hd
          · exact ⟨_, _, settled_discarded h' ((L.discarded hm₂).trans hd), flows_discard (strict _ hm₂), hm₂⟩
      | false =>
        cases outcome with
        | ok flow =>
          rw [settled_ok hx hd]
          refine first.imp id fun ⟨flow', m₂', h', hflow, hm₂⟩ => ?_
          exact ⟨_, _, settled_ok h' ((L.discarded hm₂).trans hd), hflow, hm₂⟩
        | error e =>
          rw [settled_error hx hd]
          by_cases hlax : C.lax
          · exact Or.inl ⟨hlax, Array.push_ne_empty⟩
          obtain ⟨habs, -⟩ | ⟨habs, -⟩ | ⟨m₂', h', hm₂⟩ := first
          · exact absurd habs hlax
          · exact absurd habs hlax
          · exact Or.inr ⟨_, _, settled_error h' ((L.discarded hm₂).trans hd), flows_normal,
              L.reported _ hlax hm₂⟩

theorem evalSim_initialValue (hcall : C.Answers s call call') (hS : ∀ n, S n → C.sees w n)
    {v : VarDecl} (h : ∀ e ∈ v.value, e.Admitted C S) :
    C.EvalSim p w w C.values (initialValue s call (C.scope w) v)
      (initialValue s call' (C.scope' w) v) := by
  unfold initialValue
  cases ht : v.type with
  | some type =>
    cases hv : v.value with
    | some init =>
      refine evalSim_bind_eq (evalSim_typeInfo L type) fun t => ?_
      refine evalSim_bind (evalSim_expr L hcall hS p init (h init hv)) fun u u' => ?_
      exact evalSim_lift L fun hp =>
        alike_of_natural (f := fun u => u.coerceTo t) (fun _ => Value.natural_coerceTo t) hp.2
    | none =>
      refine evalSim_bind_eq (evalSim_typeInfo L type) fun t => ?_
      exact evalSim_pure fun _ => values_plain_self fun _ => Value.rename_zeroOf t
  | none =>
    cases hv : v.value with
    | some init => exact evalSim_expr L hcall hS p init (h init hv)
    | none => exact evalSim_throw L _

/-- A declaration leads to wherever the binding of its name does. -/
theorem evalSim_declareInto (hcall : C.Answers s call call') (hS : ∀ n, S n → C.sees w n)
    {v : VarDecl} (h : ∀ e ∈ v.value, e.Admitted C S)
    (hbind : ∀ u u' m m', C.values u u' → C.rel w m m' →
      C.rel w₁ (m.bind (C.scope w) v.name (.value u)) (m'.bind (C.scope' w) v.name (.value u'))) :
    C.EvalSim p w w₁ (fun _ _ => True) (declare s call (C.scope w) v)
      (declare s call' (C.scope' w) v) := by
  unfold EvalSim declare
  rw [ExceptT.run_mk, ExceptT.run_mk]
  refine Follows.bind (evalSim_initialValue L hcall hS h) ?_ ?_
  · intro outcome m r m₁ e hm
    cases outcome <;> cases e <;> exact hm
  · intro hp outcome m second hR
    cases outcome with
    | ok u =>
      obtain ⟨u', m', rfl, hu, hm⟩ := hR
      exact Or.inr ⟨⟨⟩, _, rfl, trivial, hbind u u' m m' hu hm⟩
    | error e =>
      refine Or.inr ?_
      obtain hlax | ⟨m', rfl, hm⟩ := hR
      · exact Or.inl hlax
      · have void : C.values .void .void := values_plain_self fun _ => Value.rename_void
        exact Or.inr ⟨_, rfl, hbind _ _ m m' void hm⟩

theorem evalSim_declare (hcall : C.Answers s call call') (hS : ∀ n, S n → C.sees w n)
    {v : VarDecl} (hd : C.declares w v.name) (h : ∀ e ∈ v.value, e.Admitted C S) :
    C.EvalSim p w (C.declare w v.name) (fun _ _ => True) (declare s call (C.scope w) v)
      (declare s call' (C.scope' w) v) :=
  evalSim_declareInto L hcall hS h fun _ _ _ _ hu hm => L.bind v.name hd hu hm

theorem evalSim_condition (hcall : C.Answers s call call') (hS : ∀ n, S n → C.sees w n) {e : Expr}
    (h : e.Admitted C S) :
    C.EvalSim p w w Eq (condition s call (C.scope w) e) (condition s call' (C.scope' w) e) := by
  refine evalSim_bind (evalSim_expr L hcall hS p e h) fun v v' => ?_
  exact evalSim_truth L fun hp => hp.2

theorem evalSim_goesOn (hcall : C.Answers s call call') (hS : ∀ n, S n → C.sees w n)
    {cond : Option Expr} (h : ∀ e ∈ cond, e.Admitted C S) :
    C.EvalSim p w w Eq (goesOn s call (C.scope w) cond) (goesOn s call' (C.scope' w) cond) := by
  cases cond with
  | none => exact evalSim_pure fun _ => rfl
  | some e => exact evalSim_condition L hcall hS (h e rfl)

theorem evalSim_constAssert (hcall : C.Answers s call call') (hS : ∀ n, S n → C.sees w n) {e : Expr}
    (h : e.Admitted C S) : C.EvalSim p w w (fun _ _ => True) (constAssert s call (C.scope w) e)
      (constAssert s call' (C.scope' w) e) := by
  refine evalSim_bind (evalSim_expr L hcall hS p e h) fun v v' => ?_
  refine evalSim_bind_eq (evalSim_truth L fun hp => hp.2) fun holds => ?_
  cases holds with
  | true => exact evalSim_pure fun _ => trivial
  | false => exact evalSim_throw L _

theorem evalSim_action (hcall : C.Answers s call call') (hS : ∀ n, S n → C.sees w n) {a : Action}
    (hd : ∀ n ∈ a.declares?, C.declares w n) (h : a.Admitted C S) :
    C.EvalSim p w (C.after w a.declares?) (fun _ _ => True) (action s call (C.scope w) a)
      (action s call' (C.scope' w) a) := by
  cases a with
  | declare kind v => exact evalSim_declare L hcall hS (hd v.name rfl) h
  | assign op target value =>
    cases target with
    | none =>
      refine evalSim_bind (evalSim_expr L hcall hS p value h.2) fun _ _ => ?_
      exact evalSim_pure fun _ => trivial
    | some target =>
      refine evalSim_bind (evalSim_place L hcall hS p target (h.1 target rfl)) fun q q' => ?_
      refine evalSim_bind (evalSim_expr L hcall hS _ value h.2) fun v v' => ?_
      cases op with
      | plain => exact evalSim_writePlace L (fun hp => hp.1.2) fun hp => hp.2
      | compound op =>
        refine evalSim_bind (evalSim_readPlace L fun hp => hp.1.2) fun old old' => ?_
        refine evalSim_bind (evalSim_binary L op (fun hp => hp.2) fun hp => hp.1.2) fun new new' => ?_
        exact evalSim_writePlace L (fun hp => hp.1.1.1.2) fun hp => hp.2
  | increment op target =>
    refine evalSim_bind (evalSim_place L hcall hS p target h) fun q q' => ?_
    refine evalSim_bind (evalSim_readPlace L fun hp => hp.2) fun old old' => ?_
    refine evalSim_bind (evalSim_binary L _ (fun hp => hp.2)
      fun _ => values_plain_self fun _ => Value.rename_i32 1) fun new new' => ?_
    exact evalSim_writePlace L (fun hp => hp.1.1.2) fun hp => hp.2
  | call callee =>
    refine evalSim_bind (evalSim_expr L hcall hS p callee h) fun _ _ => ?_
    exact evalSim_pure fun _ => trivial

theorem sim_simple (hcall : C.Answers s call call') (hS : ∀ n, S n → C.sees w n) {st : SimpleStmt}
    (hd : ∀ n ∈ st.action.declares?, C.declares w n) (h : st.action.Admitted C S) :
    C.Sim p w (C.after w st.action.declares?) C.flows (simple s call (C.scope w) st)
      (simple s call' (C.scope' w) st) := by
  refine sim_settled L st.line ?_
  refine evalSim_bind (evalSim_action L hcall hS hd h) fun _ _ => ?_
  exact evalSim_pure fun _ => flows_normal

theorem sim_header (hcall : C.Answers s call call') (hS : ∀ n, S n → C.sees w n)
    {st? : Option SimpleStmt} (hi : C.inner w) (h : ∀ st ∈ st?, st.action.Admitted C S) :
    C.Sim p w (C.after w (st?.bind fun st => st.action.declares?)) (fun _ _ => True)
      (header s call (C.scope w) st?) (header s call' (C.scope' w) st?) := by
  cases st? with
  | none => exact sim_pure fun _ => trivial
  | some st =>
    refine sim_bind (sim_simple L hcall hS (fun n _ => L.declares_inner n hi) (h st rfl)) fun _ _ => ?_
    exact sim_pure fun _ => trivial

/-- The header of a `for` again, without regard to what it declares. -/
theorem sim_update (hcall : C.Answers s call call') (hS : ∀ n, S n → C.sees w n)
    {st? : Option SimpleStmt} (hi : C.inner w) (h : ∀ st ∈ st?, st.action.Admitted C S) :
    C.Sim p w w (fun _ _ => True) (header s call (C.scope w) st?)
      (header s call' (C.scope' w) st?) :=
  sim_weaken (sim_header L hcall hS hi h) id (fun _ _ _ hf => hf) fun _ _ _ => rel_of_after L

/-! ## Loops and selections -/

theorem evalSim_rounds {round round' : Eval (Option Flow)}
    (h : C.EvalSim p w w C.endings round round') (n : Nat) :
    C.EvalSim p w w C.flows (rounds round n) (rounds round' n) := by
  induction n with
  | zero => exact evalSim_throw L _
  | succ n ih =>
    refine evalSim_bind h (Follows.of_image fun ending => ?_)
    cases ending with
    | none => exact evalSim_assuming ih fun hp => hp.1
    | some flow =>
      refine evalSim_pure fun hp => ⟨rfl, ?_, fun e => hp.2.2 (by rw [e])⟩
      exact Option.some.inj hp.2.1

theorem evalSim_isSelected (hcall : C.Answers s call call') (hS : ∀ n, S n → C.sees w n)
    {v v' : Value} (hv : p → C.values v v') (es : List Expr) (h : Expr.AllAdmitted C S es) :
    C.EvalSim p w w Eq (isSelected s call (C.scope w) v es)
      (isSelected s call' (C.scope' w) v' es) := by
  induction es with
  | nil => exact evalSim_pure fun _ => rfl
  | cons e rest ih =>
    refine evalSim_bind (evalSim_expr L hcall hS p e h.1) fun u u' => ?_
    refine evalSim_bind (evalSim_binary L _ (fun hp => hv hp.1) fun hp => hp.2) fun b b' => ?_
    refine evalSim_bind_eq (evalSim_truth L fun hp => hp.2) fun holds => ?_
    cases holds with
    | true => exact evalSim_pure fun _ => rfl
    | false => exact evalSim_assuming (ih h.2) fun hp => hp.1.1

theorem evalSim_selected? (hcall : C.Answers s call call') (hS : ∀ n, S n → C.sees w n)
    {v v' : Value} (hv : p → C.values v v') (clauses : List SwitchClause)
    (h : ∀ c ∈ clauses, Expr.AllAdmitted C S c.selectors) :
    C.EvalSim p w w Eq (selected? s call (C.scope w) v clauses)
      (selected? s call' (C.scope' w) v' clauses) := by
  induction clauses with
  | nil => exact evalSim_pure fun _ => rfl
  | cons c rest ih =>
    rw [List.forall_mem_cons] at h
    refine evalSim_bind_eq (evalSim_isSelected L hcall hS hv c.selectors h.1) fun holds => ?_
    cases holds with
    | true => exact evalSim_pure fun _ => rfl
    | false => exact evalSim_bind_eq (ih h.2) fun i => evalSim_pure fun _ => rfl

theorem evalSim_chosenClause? (hcall : C.Answers s call call') (hS : ∀ n, S n → C.sees w n)
    {e : Expr} (he : e.Admitted C S) {clauses : List SwitchClause}
    (h : ∀ c ∈ clauses, Expr.AllAdmitted C S c.selectors) :
    C.EvalSim p w w Eq (chosenClause? s call (C.scope w) e clauses)
      (chosenClause? s call' (C.scope' w) e clauses) := by
  refine evalSim_bind (evalSim_expr L hcall hS p e he) fun v v' => ?_
  refine evalSim_bind_eq (evalSim_selected? L hcall hS (fun hp => hp.2) clauses h) fun i => ?_
  cases i with
  | some i => exact evalSim_pure fun _ => rfl
  | none => exact evalSim_pure fun _ => rfl

/-! ## Statements -/

/-- A list of statements in a scope of its own. -/
theorem evalSim_block {body : List Stmt} {S : String → Prop}
    (hbody : ∀ w₁, C.inner w₁ → (∀ n, S n → C.sees w₁ n) →
      C.Sim p w₁ w₁ C.flows (stmts s call (C.scope w₁) body) (stmts s call' (C.scope' w₁) body))
    (hS : ∀ n, S n → C.sees w n) :
    C.EvalSim p w w C.flows (inBlock (C.scope w) fun scope => stmts s call scope body)
      (inBlock (C.scope' w) fun scope => stmts s call' scope body) :=
  evalSim_ofExec (sim_inScope L fun w₁ hi₁ hsees => hbody w₁ hi₁ fun n hn => hsees n (hS n hn))

mutual

theorem sim_stmt (hcall : C.Answers s call call') :
    ∀ (st : Stmt) (p : Prop) (w : C.World) (S : String → Prop), C.inner w →
      (∀ n, S n → C.sees w n) → st.Admitted C S →
      C.Sim p w (C.after w st.declares?) C.flows (stmt s call (C.scope w) st)
        (stmt s call' (C.scope' w) st)
  | .simple st, p, w, S, hi, hS, h => by
    rw [stmt, stmt]
    exact sim_simple L hcall hS (fun n _ => L.declares_inner n hi) h
  | .ifElse line cond body rest, p, w, S, hi, hS, h => by
    rw [stmt, stmt]
    refine sim_settled L line ?_
    refine evalSim_bind_eq (evalSim_condition L hcall hS h.1) fun holds => ?_
    cases holds with
    | true =>
      exact evalSim_block L (fun w₁ hi₁ hS₁ => sim_stmts hcall body p w₁ S hi₁ hS₁ h.2.1) hS
    | false => exact evalSim_elseChain hcall rest p w S hS h.2.2
  | .forLoop line init cond update body, p, w, S, hi, hS, h => by
    rw [stmt, stmt]
    refine sim_settled L line (evalSim_inScope L fun w₁ hi₁ hsees => ?_)
    have hS₁ : ∀ n, S n → C.sees w₁ n := fun n hn => hsees n (hS n hn)
    obtain ⟨hinit, hcond, hupdate, hbody⟩ := h
    have started := sim_header (p := p) L hcall hS₁ hi₁ hinit
    generalize (init.bind fun st => st.action.declares?) = name? at hcond hupdate hbody started
    have hS₂ : ∀ n, withName S name? n → C.sees (C.after w₁ name?) n := sees_after L hi₁ hS₁
    have hi₂ : C.inner (C.after w₁ name?) := inner_after L hi₁
    refine evalSim_weaken (evalSim_bind (evalSim_ofExec started) fun _ _ => ?_)
      id (fun _ _ _ hf => hf) fun _ _ _ hm => rel_of_after L hm
    have hscope : C.scope (C.after w₁ name?) = C.scope w₁ := scope_after L
    have hscope' : C.scope' (C.after w₁ name?) = C.scope' w₁ := scope'_after L
    rw [← hscope, ← hscope']
    refine evalSim_rounds L ?_ _
    refine evalSim_bind_eq (evalSim_goesOn L hcall hS₂ hcond) fun holds => ?_
    cases holds with
    | false => exact evalSim_pure fun _ => endings_some flows_normal
    | true =>
      refine evalSim_bind (evalSim_block L (fun w₁ hi₁ hS₁ =>
        sim_stmts hcall body _ w₁ _ hi₁ hS₁ hbody) hS₂) (Follows.of_image fun flow => ?_)
      have next := fun q : Prop => evalSim_ofExec (sim_update (p := q) L hcall hS₂ hi₂ hupdate)
      cases flow with
      | normal => exact evalSim_bind (next _) fun _ _ => evalSim_pure fun _ => endings_none
      | continue_ => exact evalSim_bind (next _) fun _ _ => evalSim_pure fun _ => endings_none
      | break_ => exact evalSim_pure fun _ => endings_some flows_normal
      | return_ v => exact evalSim_pure fun hp => endings_some ⟨rfl, hp.2⟩
      | discard => exact evalSim_pure fun hp => endings_some ⟨rfl, hp.2⟩
  | .whileLoop line cond body, p, w, S, hi, hS, h => by
    rw [stmt, stmt]
    refine sim_settled L line (evalSim_rounds L ?_ _)
    refine evalSim_bind_eq (evalSim_condition L hcall hS h.1) fun holds => ?_
    cases holds with
    | true =>
      refine evalSim_bind (evalSim_block L (fun w₁ hi₁ hS₁ =>
        sim_stmts hcall body p w₁ S hi₁ hS₁ h.2) hS) fun f f' => ?_
      exact evalSim_pure fun hp => endings_afterBody hp.2
    | false => exact evalSim_pure fun _ => endings_some flows_normal
  | .loop line body continuing, p, w, S, hi, hS, h => by
    rw [stmt, stmt]
    refine sim_settled L line (evalSim_rounds L (evalSim_ofExec ?_) _)
    refine sim_bind (P := C.flows) ?_ fun f f' => sim_pure fun hp => endings_afterBody hp.2
    refine sim_inScope L fun w₁ hi₁ hsees => ?_
    have hS₁ : ∀ n, S n → C.sees w₁ n := fun n hn => hsees n (hS n hn)
    refine sim_bind (sim_stmts hcall body p w₁ S hi₁ hS₁ h.1) (Follows.of_image fun flow => ?_)
    cases flow with
    | normal => exact sim_continuingPart hcall continuing _ w₁ S hi₁ hS₁ h.2
    | continue_ => exact sim_continuingPart hcall continuing _ w₁ S hi₁ hS₁ h.2
    | break_ => exact sim_pure fun hp => ⟨rfl, hp.2⟩
    | return_ v => exact sim_pure fun hp => ⟨rfl, hp.2⟩
    | discard => exact sim_pure fun hp => ⟨rfl, hp.2⟩
  | .switch line selector clauses, p, w, S, hi, hS, h => by
    rw [stmt, stmt]
    refine sim_settled L line ?_
    refine evalSim_bind_eq (evalSim_chosenClause? L hcall hS h.1 (SwitchClause.admitted_selectors h.2))
      fun chosen => ?_
    cases chosen with
    | none => exact evalSim_pure fun _ => flows_normal
    | some i =>
      refine evalSim_bind (evalSim_ofExec (sim_clauseAt hcall clauses p w S i hS h.2))
        (Follows.of_image fun flow => ?_)
      cases flow with
      | break_ => exact evalSim_pure fun _ => flows_normal
      | normal => exact evalSim_pure fun hp => ⟨rfl, hp.2⟩
      | continue_ => exact evalSim_pure fun hp => ⟨rfl, hp.2⟩
      | return_ v => exact evalSim_pure fun hp => ⟨rfl, hp.2⟩
      | discard => exact evalSim_pure fun hp => ⟨rfl, hp.2⟩
  | .block line body, p, w, S, hi, hS, h => by
    rw [stmt, stmt]
    exact sim_settled L line (evalSim_block L (fun w₁ hi₁ hS₁ =>
      sim_stmts hcall body p w₁ S hi₁ hS₁ h) hS)
  | .return_ line value, p, w, S, hi, hS, h => by
    cases value with
    | none =>
      rw [stmt, stmt]
      exact sim_settled L line (evalSim_pure fun _ => flows_return_none)
    | some e =>
      rw [stmt, stmt]
      refine sim_settled L line ?_
      refine evalSim_bind (evalSim_expr L hcall hS p e (h e rfl)) fun v v' => ?_
      exact evalSim_pure fun hp => flows_return hp.2
  | .break_ line, p, w, S, hi, hS, h => by
    rw [stmt, stmt]
    exact sim_settled L line (evalSim_pure fun _ => flows_break)
  | .breakIf line cond, p, w, S, hi, hS, h => by
    rw [stmt, stmt]
    refine sim_settled L line ?_
    refine evalSim_bind_eq (evalSim_condition L hcall hS h) fun holds => ?_
    cases holds with
    | true => exact evalSim_pure fun _ => flows_break
    | false => exact evalSim_pure fun _ => flows_normal
  | .continue_ line, p, w, S, hi, hS, h => by
    rw [stmt, stmt]
    exact sim_settled L line (evalSim_pure fun _ => flows_continue)
  | .discard line, p, w, S, hi, hS, h => by
    rw [stmt, stmt]
    exact sim_settled L line (evalSim_pure fun _ => flows_discard h)
  | .constAssert line cond, p, w, S, hi, hS, h => by
    rw [stmt, stmt]
    refine sim_settled L line ?_
    refine evalSim_bind (evalSim_constAssert L hcall hS h) fun _ _ => ?_
    exact evalSim_pure fun _ => flows_normal

theorem sim_stmts (hcall : C.Answers s call call') :
    ∀ (body : List Stmt) (p : Prop) (w : C.World) (S : String → Prop), C.inner w →
      (∀ n, S n → C.sees w n) → Stmt.AllAdmitted C S body →
      C.Sim p w w C.flows (stmts s call (C.scope w) body) (stmts s call' (C.scope' w) body)
  | [], p, w, S, hi, hS, h => by
    rw [stmts, stmts]
    exact sim_pure fun _ => flows_normal
  | st :: rest, p, w, S, hi, hS, h => by
    rw [stmts, stmts]
    refine sim_bind (sim_stmt hcall st p w S hi hS h.1) (Follows.of_image fun flow => ?_)
    have back : ∀ p : Prop, p → ∀ m m', C.rel (C.after w st.declares?) m m' → C.rel w m m' :=
      fun _ _ _ _ hm => rel_of_after L hm
    cases flow with
    | normal =>
      have rest := sim_stmts hcall rest p _ _ (inner_after L hi) (sees_after L hi hS) h.2
      rw [scope_after L, scope'_after L] at rest
      exact sim_weaken rest (fun hp => hp.1) (fun _ _ _ hf => hf) (back _)
    | break_ => exact sim_weaken (sim_pure fun hp => ⟨rfl, hp.2⟩) id (fun _ _ _ hf => hf) (back _)
    | continue_ => exact sim_weaken (sim_pure fun hp => ⟨rfl, hp.2⟩) id (fun _ _ _ hf => hf) (back _)
    | return_ v => exact sim_weaken (sim_pure fun hp => ⟨rfl, hp.2⟩) id (fun _ _ _ hf => hf) (back _)
    | discard => exact sim_weaken (sim_pure fun hp => ⟨rfl, hp.2⟩) id (fun _ _ _ hf => hf) (back _)

theorem sim_continuingPart (hcall : C.Answers s call call') :
    ∀ (body : Option (List Stmt)) (p : Prop) (w : C.World) (S : String → Prop), C.inner w →
      (∀ n, S n → C.sees w n) → Stmt.PartAdmitted C S body →
      C.Sim p w w C.flows (continuingPart s call (C.scope w) body)
        (continuingPart s call' (C.scope' w) body)
  | none, p, w, S, hi, hS, h => by
    rw [continuingPart, continuingPart]
    exact sim_pure fun _ => flows_normal
  | some body, p, w, S, hi, hS, h => by
    rw [continuingPart, continuingPart]
    exact sim_stmts hcall body p w S hi hS h

theorem evalSim_elseChain (hcall : C.Answers s call call') :
    ∀ (rest : ElseChain) (p : Prop) (w : C.World) (S : String → Prop),
      (∀ n, S n → C.sees w n) → rest.Admitted C S →
      C.EvalSim p w w C.flows (elseChain s call (C.scope w) rest)
        (elseChain s call' (C.scope' w) rest)
  | .none, p, w, S, hS, h => by
    rw [elseChain, elseChain]
    exact evalSim_pure fun _ => flows_normal
  | .else_ body, p, w, S, hS, h => by
    rw [elseChain, elseChain]
    exact evalSim_block L (fun w₁ hi₁ hS₁ => sim_stmts hcall body p w₁ S hi₁ hS₁ h) hS
  | .elseIf _ cond body rest, p, w, S, hS, h => by
    rw [elseChain, elseChain]
    refine evalSim_bind_eq (evalSim_condition L hcall hS h.1) fun holds => ?_
    cases holds with
    | true =>
      exact evalSim_block L (fun w₁ hi₁ hS₁ => sim_stmts hcall body p w₁ S hi₁ hS₁ h.2.1) hS
    | false => exact evalSim_elseChain hcall rest p w S hS h.2.2

theorem sim_clauseAt (hcall : C.Answers s call call') :
    ∀ (clauses : List SwitchClause) (p : Prop) (w : C.World) (S : String → Prop) (i : Nat),
      (∀ n, S n → C.sees w n) → SwitchClause.AllAdmitted C S clauses →
      C.Sim p w w C.flows (clauseAt s call (C.scope w) clauses i)
        (clauseAt s call' (C.scope' w) clauses i)
  | [], p, w, S, i, hS, h => by
    rw [clauseAt, clauseAt]
    exact sim_pure fun _ => flows_normal
  | .mk _ _ _ body :: rest, p, w, S, i, hS, h => by
    cases i with
    | zero =>
      rw [clauseAt, clauseAt]
      refine sim_inScope L fun w₁ hi₁ hsees => ?_
      exact sim_stmts hcall body p w₁ S hi₁ (fun n hn => hsees n (hS n hn)) h.2.1
    | succ i =>
      rw [clauseAt, clauseAt]
      exact sim_clauseAt hcall rest p w S i hS h.2.2

end

/-! ## Calls -/

theorem evalSim_arguments {F : Field × Value → Eval (String × Value)}
    (hF : ∀ a v, F (a, v) = typeInfo a.type >>= fun t => liftM (v.coerceTo t) >>= fun u =>
      pure (a.name, u)) (params : List Field) (vs : List Value) (hl : vs.length = params.length) :
    C.EvalSim (p ∧ C.valuesAll vs (vs.map (rename C.across))) w w
      (C.arguments (params.map Field.name)) ((params.zip vs).mapM F)
      ((params.zip (vs.map (rename C.across))).mapM F) := by
  induction params generalizing vs with
  | nil => exact evalSim_pure fun _ => ⟨rfl, nofun, rfl⟩
  | cons a params ih =>
    cases vs with
    | nil => cases hl
    | cons v vs =>
      rw [List.map_cons, List.zip_cons_cons, List.zip_cons_cons, List.mapM_cons, List.mapM_cons,
        hF, hF, bind_assoc, bind_assoc]
      refine evalSim_bind_eq (evalSim_typeInfo L a.type) fun t => ?_
      rw [bind_assoc, bind_assoc]
      refine evalSim_bind (P := C.values) (evalSim_lift L fun hp => ?_) fun u u' => ?_
      · obtain ⟨u, us, e, hu, -⟩ := valuesAll_of_cons hp.2
        cases e
        exact alike_of_natural (f := fun v => v.coerceTo t) (fun _ => Value.natural_coerceTo t) hu
      rw [pure_bind, pure_bind]
      refine evalSim_bind (evalSim_assuming (ih vs (Nat.succ.inj hl)) fun hp => ?_) fun b b' => ?_
      · obtain ⟨u, us, e, -, hus⟩ := valuesAll_of_cons hp.1.2
        cases e
        exact ⟨hp.1.1, hus⟩
      · refine evalSim_pure fun hp => ?_
        obtain ⟨⟨-, rfl, hu⟩, rfl, hb, hnames⟩ := hp
        exact ⟨rfl, List.forall_mem_cons.2 ⟨hu, hb⟩, by rw [List.map_cons, hnames]; rfl⟩

theorem sim_bindAll {Q : α → α → Prop} {F F' : String × Value → Exec PUnit} {x x' : Exec α}
    (a : List (String × Value))
    (hF : ∀ n v, F (n, v) = Exec.bind (C.scope w) n (.value v))
    (hF' : ∀ n v, F' (n, v) = Exec.bind (C.scope' w) n (.value v)) (hi : C.inner w)
    (h : ∀ w₁, C.scope w₁ = C.scope w → C.scope' w₁ = C.scope' w → C.inner w₁ →
      (∀ n, C.sees w n → C.sees w₁ n) → (∀ n ∈ a.map Prod.fst, C.sees w₁ n) → C.Sim p w₁ w₁ Q x x') :
    C.Sim (p ∧ ∀ x ∈ a, x.2.rename C.within = x.2) w w Q (a.forM F >>= fun _ => x)
      ((a.map (Prod.map id (rename C.across))).forM F' >>= fun _ => x') := by
  induction a generalizing w with
  | nil =>
    exact Follows.weaken (h w rfl rfl hi (fun _ hn => hn) nofun) (fun hp => hp.1)
      fun _ _ _ _ hR => hR
  | cons b a ih =>
    obtain ⟨n, v⟩ := b
    rw [List.map_cons, List.forM, List.forM, bind_assoc, bind_assoc, Prod.map, hF, hF']
    have bound : C.Sim (p ∧ ∀ x ∈ (n, v) :: a, x.2.rename C.within = x.2) w (C.declare w n)
        (fun _ _ => True) (Exec.bind (C.scope w) n (.value v))
        (Exec.bind (C.scope' w) n (.value (v.rename C.across))) :=
      sim_modify (fun _ => rfl) fun hp m m' hm =>
        L.bind n (L.declares_inner n hi) ⟨rfl, hp.2 (n, v) List.mem_cons_self⟩ hm
    refine sim_bind bound fun _ _ => ?_
    refine sim_weaken (ih (w := C.declare w n) ?_ ?_ (L.inner_declare n hi) ?_) ?_
      (fun _ _ _ hQ => hQ) fun _ _ _ hm => L.weaken n hm
    · rw [L.scope_declare]
      exact hF
    · rw [L.scope'_declare]
      exact hF'
    · intro w₁ hs hs' hi₁ hsees hnames
      refine h w₁ (hs.trans (L.scope_declare w n)) (hs'.trans (L.scope'_declare w n)) hi₁
        (fun m hm => hsees m (L.sees_declare n hm)) ?_
      refine List.forall_mem_cons.2 ⟨?_, hnames⟩
      exact hsees n (L.sees_declared n hi)
    · exact fun hp => ⟨hp.1.1, fun x hx => hp.1.2 x (List.mem_cons_of_mem _ hx)⟩

omit L in
/-- A scope that is opened for a call and closed behind it. -/
theorem inScope_of_call (k : ScopeId → Exec Unit) (x : ScopeId → Exec α) :
    (ofExec (Exec.pushScope ScopeArena.root >>= fun scope => k scope >>= fun _ => pure scope) >>=
      fun scope => ofExec (x scope >>= fun a => Exec.popScope scope >>= fun _ => pure a)) =
      ofExec (Exec.inScope ScopeArena.root fun scope => k scope >>= fun _ => x scope) := by
  refine ExceptT.ext ?_
  unfold ofExec
  rw [ExceptT.run_bind_lift]
  simp only [ExceptT.run_lift, Exec.inScope, bind_assoc, map_bind, pure_bind]

theorem evalSim_bindCall {Q : α → α → Prop} {x x' : ScopeId → Exec α} {f : Function}
    {vs vs' : List Value} (hs : p → C.valuesAll vs vs')
    (h : ∀ w₁, C.inner w₁ → (∀ n, C.free n → C.sees w₁ n) →
      C.Sim (p ∧ ∀ n ∈ f.args.map Field.name, C.sees w₁ n) w₁ w₁ Q (x (C.scope w₁))
        (x' (C.scope' w₁))) :
    C.EvalSim p w w Q
      (bindCall f vs >>= fun scope =>
        ofExec (x scope >>= fun a => Exec.popScope scope >>= fun _ => pure a))
      (bindCall f vs' >>= fun scope =>
        ofExec (x' scope >>= fun a => Exec.popScope scope >>= fun _ => pure a)) := by
  refine evalSim_of_valuesAll
    (f := fun vs => bindCall f vs >>= fun scope =>
      ofExec (x scope >>= fun a => Exec.popScope scope >>= fun _ => pure a))
    (g := fun vs' => bindCall f vs' >>= fun scope =>
      ofExec (x' scope >>= fun a => Exec.popScope scope >>= fun _ => pure a)) hs ?_
  unfold bindCall
  rw [List.length_map]
  by_cases hl : vs.length = f.args.length
  · rw [if_neg (fun hne => hne hl), if_neg (fun hne => hne hl)]
    beta_reduce
    rw [bind_assoc, bind_assoc]
    refine evalSim_bind (evalSim_arguments L (fun _ _ => rfl) f.args vs hl)
      (Follows.of_image fun a => ?_)
    change C.EvalSim _ w w Q _ _
    rw [inScope_of_call, inScope_of_call]
    refine evalSim_ofExec (sim_inCall L fun w₁ hi₁ hfree => ?_)
    refine sim_weaken (p := (p ∧ C.valuesAll vs (vs.map (rename C.across))) ∧
        (∀ b ∈ a, b.2.rename C.within = b.2) ∧ a.map Prod.fst = f.args.map Field.name)
      (sim_bindAll (p := p ∧ a.map Prod.fst = f.args.map Field.name) L a (fun _ _ => rfl)
        (fun _ _ => rfl) hi₁ ?_) (fun hp => ⟨⟨hp.1.1, hp.2.2⟩, hp.2.1⟩) (fun _ _ _ hQ => hQ)
      fun _ _ _ hm => hm
    intro w₂ hs₂ hs₂' hi₂ hsees hnames
    rw [← hs₂, ← hs₂']
    exact sim_weaken (h w₂ hi₂ fun n hn => hsees n (hfree n hn)) (fun hp => ⟨hp.1, hp.2 ▸ hnames⟩) (fun _ _ _ hQ => hQ)
      fun _ _ _ hm => hm
  · rw [if_pos hl, if_pos hl]
    exact evalSim_throw L _

/-- The body of a function, as far as the names that it reads are there. -/
theorem sim_body (hcall : C.Answers s call call') {body : List Stmt} (hi : C.inner w)
    (h : Stmt.AllAdmitted C S body) :
    C.Sim (p ∧ ∀ n, S n → C.sees w n) w w C.flows (stmts s call (C.scope w) body)
      (stmts s call' (C.scope' w) body) := by
  obtain ⟨w₀, hw₀, hi₀, hsees⟩ := L.everywhere (C.scope w)
  have spoils := sim_stmts L hcall body True w₀ S hi₀ (fun n _ => hsees n) h
  rw [hw₀] at spoils
  exact Follows.under spoils fun hS => sim_stmts L hcall body p w S hi hS h

theorem evalSim_returnValue (f : Function) {v v' : Value} (h : p → C.values v v') :
    C.EvalSim p w w C.values (returnValue f v) (returnValue f v') := by
  unfold returnValue
  cases f.returnType with
  | none => exact evalSim_pure h
  | some type =>
    refine evalSim_bind_eq (evalSim_typeInfo L type) fun t => evalSim_lift L fun hp => ?_
    exact alike_of_natural (f := fun v => v.coerceTo t) (fun _ => Value.natural_coerceTo t) (h hp)

/-- Bodies that run as one call more. -/
theorem sim_nested {Q : α → α → Prop} {x x' : Exec α} (h : C.Sim p w w Q x x') :
    C.Sim p w w Q (Exec.nested x) (Exec.nested x') := by
  unfold Exec.nested
  have deepened : ∀ (p : Prop) (f : Nat → Nat), C.Sim p w w (fun _ _ => True)
      (modify fun m => { m with callDepth := f m.callDepth } : Exec PUnit)
      (modify fun m => { m with callDepth := f m.callDepth }) := fun p f =>
    sim_modify (fun _ => rfl) fun _ m m' hm => by
      rw [L.callDepth hm]
      exact L.withDepth _ hm
  refine sim_bind (deepened p (· + 1)) fun _ _ => ?_
  refine sim_bind (sim_weaken h (fun hp => hp.1) (fun _ _ _ hQ => hQ) fun _ _ _ hm => hm)
    fun a a' => ?_
  exact sim_bind (deepened _ (· - 1)) fun _ _ => sim_pure fun hp => hp.1.2

/-- What calls give whose bodies ended alike. -/
theorem evalSim_callValue (f : Function) (flow : Flow) :
    C.EvalSim (p ∧ flow.rename C.within = flow ∧ (flow = .discard → ¬C.lax)) w w C.values
      (callValue f flow) (callValue f (flow.rename C.across)) := by
  have void : C.values .void .void := values_plain_self fun _ => Value.rename_void
  cases flow with
  | normal => exact evalSim_pure fun _ => void
  | break_ => exact evalSim_pure fun _ => void
  | continue_ => exact evalSim_pure fun _ => void
  | discard =>
    refine evalSim_bind (evalSim_ofExec (sim_modify (fun _ => rfl) fun hp _ _ hm => ?_))
      fun _ _ => evalSim_pure fun _ => void
    exact L.discard (hp.2.2 rfl) hm
  | return_ v =>
    cases v with
    | none => exact evalSim_pure fun _ => void
    | some v =>
      refine evalSim_returnValue L f fun hp => ⟨rfl, ?_⟩
      exact Option.some.inj (Flow.return_.inj hp.2.1)

/-- Calls are answered alike, however many may nest. -/
theorem answers_callWithin
    (hbodies : ∀ name f, C.calls name → s.function? name = some f →
      Stmt.AllAdmitted C (fun n => C.free n ∨ n ∈ f.args.map Field.name) f.body) (budget : Nat) :
    C.Answers s (callWithin s budget) (callWithin s budget) := by
  induction budget with
  | zero =>
    intro p w name f vs vs' hn hf hs
    exact evalSim_throw L _
  | succ budget ih =>
    intro p w name f vs vs' hn hf hs
    rw [callWithin]
    refine evalSim_reading fun m m' => ?_
    split
    · refine evalSim_congr (evalSim_throw L (tooDeep f)) fun hp => ?_
      rw [L.callDepth hp.2, if_pos ‹_›]
    · refine evalSim_congr (y := ?_) ?_ fun hp => ?_
      rotate_left 2
      · rw [L.callDepth hp.2, if_neg ‹_›]
      rw [← bind_assoc, ← bind_assoc]
      refine evalSim_bind (evalSim_bindCall (Q := C.flows) L (fun hp => hs hp.1)
        fun w₁ hi₁ hfree => ?_)
        (Follows.of_image fun flow => evalSim_callValue L f flow)
      refine sim_nested L (sim_weaken (sim_body L ih hi₁ (hbodies name f hn hf))
        (fun hp => ⟨hp.1, ?_⟩) (fun _ _ _ hQ => hQ) fun _ _ _ hm => hm)
      exact fun n h => h.elim (hfree n) (hp.2 n)

end

end Eval

end Wgsl
