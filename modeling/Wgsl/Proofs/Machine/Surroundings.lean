import Wgsl.Machine.Dispatch
import Wgsl.Proofs.Machine.Statements
import Wgsl.Proofs.Tree.Nodes

/-! # Where a statement stands

What a statement may do depends on what is around it: which names are declared there, and whether
there is anything to break out of or to go on with.

* `Surroundings`: what matters of the blocks around a statement.
* `Stmt.Everywhere`, `Function.Everywhere`: a condition on every statement in a piece of text.
* `Stmt.admitted_of_nodes`: a statement may run if the nodes in it may.
-/

namespace Wgsl
set_option autoImplicit false

/-- What is around a statement. -/
structure Surroundings where
  /-- The names of the module and those declared in a block around the statement. -/
  names : String → Prop
  /-- There is a loop or a clause of a `switch` in the function to break out of. -/
  breaks : Prop
  /-- There is a loop in the function to go on with. -/
  continues : Prop

namespace Surroundings

variable (c : Surroundings)

/-- Inside a block that declares the names. -/
def within (names : List String) : Surroundings :=
  { c with names := fun n => c.names n ∨ n ∈ names }

/-- Inside the body of a loop. -/
def looping : Surroundings := { c with breaks := True, continues := True }

/-- Inside a `continuing` part, from which there is no way back to its own begin. -/
def ending : Surroundings := { c with breaks := True, continues := False }

/-- Inside a clause of a `switch`. -/
def switching : Surroundings := { c with breaks := True }

end Surroundings

/-- The names that statements declare in the scope they run in. -/
def Stmt.declared (body : List Stmt) : List String := body.filterMap Stmt.declares?

/-- The names that the header of a `for` declares. -/
def SimpleStmt.declared (header : Option SimpleStmt) : List String :=
  (header.bind fun st => st.action.declares?).toList

/-- The names that are declared directly in a `loop` or in its `continuing` part. -/
def Stmt.loopNames (body : List Stmt) (continuing : Option (List Stmt)) : List String :=
  declared body ++ declared (continuing.getD [])

mutual

/-- The condition holds of the statement and of all statements in it, each with what is around it. -/
def Stmt.Everywhere (P : Surroundings → Stmt → Prop) (c : Surroundings) : Stmt → Prop
  | .ifElse line cond body rest =>
    P c (.ifElse line cond body rest) ∧
      Stmt.AllEverywhere P (c.within (Stmt.declared body)) body ∧ ElseChain.Everywhere P c rest
  | .forLoop line init cond update body =>
    P c (.forLoop line init cond update body) ∧
      Stmt.AllEverywhere P (((c.within (SimpleStmt.declared init ++ SimpleStmt.declared update)).within
        (Stmt.declared body)).looping) body
  | .whileLoop line cond body =>
    P c (.whileLoop line cond body) ∧
      Stmt.AllEverywhere P (c.within (Stmt.declared body)).looping body
  | .loop line body continuing =>
    P c (.loop line body continuing) ∧
      Stmt.AllEverywhere P (c.within (Stmt.loopNames body continuing)).looping body ∧
      Stmt.PartEverywhere P (c.within (Stmt.loopNames body continuing)).ending continuing
  | .switch line selector clauses =>
    P c (.switch line selector clauses) ∧ SwitchClause.AllEverywhere P c.switching clauses
  | .block line body =>
    P c (.block line body) ∧ Stmt.AllEverywhere P (c.within (Stmt.declared body)) body
  | .simple st => P c (.simple st)
  | .return_ line value => P c (.return_ line value)
  | .break_ line => P c (.break_ line)
  | .breakIf line cond => P c (.breakIf line cond)
  | .continue_ line => P c (.continue_ line)
  | .discard line => P c (.discard line)
  | .constAssert line cond => P c (.constAssert line cond)

def Stmt.AllEverywhere (P : Surroundings → Stmt → Prop) (c : Surroundings) : List Stmt → Prop
  | [] => True
  | st :: rest => Stmt.Everywhere P c st ∧ Stmt.AllEverywhere P c rest

def Stmt.PartEverywhere (P : Surroundings → Stmt → Prop) (c : Surroundings) :
    Option (List Stmt) → Prop
  | none => True
  | some body => Stmt.AllEverywhere P c body

def ElseChain.Everywhere (P : Surroundings → Stmt → Prop) (c : Surroundings) : ElseChain → Prop
  | .none => True
  | .else_ body => Stmt.AllEverywhere P (c.within (Stmt.declared body)) body
  | .elseIf _ _ body rest =>
    Stmt.AllEverywhere P (c.within (Stmt.declared body)) body ∧ ElseChain.Everywhere P c rest

def SwitchClause.AllEverywhere (P : Surroundings → Stmt → Prop) (c : Surroundings) :
    List SwitchClause → Prop
  | [] => True
  | .mk _ _ _ body :: rest =>
    Stmt.AllEverywhere P (c.within (Stmt.declared body)) body ∧ SwitchClause.AllEverywhere P c rest

end

/-- The names that values are declared with at module scope. -/
def Program.valueNames (p : Program) : List String :=
  p.declarations.filterMap fun
    | .value _ v => some v.name
    | _ => none

/-- The names of the built-in values of an invocation. No text spells them. -/
def Invocation.builtinNames : List String :=
  ["@workgroup_id", "@local_invocation_id", "@global_invocation_id", "@local_invocation_index",
    "@num_workgroups"]

theorem Invocation.builtins_names (i : Invocation) (workgroups : Extent) :
    (i.builtins workgroups).map Prod.fst = builtinNames := rfl

/-- What is around the body of a function. -/
def Function.surroundings (p : Program) (f : Function) : Surroundings where
  names n := n ∈ p.valueNames ∨ n ∈ Invocation.builtinNames ∨ n ∈ f.args.map Field.name ∨
    n ∈ Stmt.declared f.body
  breaks := False
  continues := False

/-- The condition holds of every statement of the function. -/
def Function.Everywhere (P : Surroundings → Stmt → Prop) (p : Program) (f : Function) : Prop :=
  Stmt.AllEverywhere P (f.surroundings p) f.body

/-! ## Conditions on statements -/

/-- A `break` has something to break out of, and a `continue` something to go on with. -/
def Stmt.Lands (c : Surroundings) : Stmt → Prop
  | .break_ _ => c.breaks
  | .breakIf _ _ => c.breaks
  | .continue_ _ => c.continues
  | _ => True

/-- A `loop` declares names that no block around it declares. -/
def Stmt.Unshadowing (c : Surroundings) : Stmt → Prop
  | .loop _ body continuing => ∀ n ∈ loopNames body continuing, ¬c.names n
  | _ => True

def Stmt.IsIf : Stmt → Prop
  | .ifElse .. => True
  | _ => False

/-- A `continuing` part has no `if` among its statements. -/
def Stmt.Straight (_ : Surroundings) : Stmt → Prop
  | .loop _ _ (some part) => ∀ st ∈ part, ¬st.IsIf
  | _ => True

/-- The statement can be stepped over: it lands, and its commands stand for it. -/
structure Stmt.Steppable (c : Surroundings) (st : Stmt) : Prop where
  lands : st.Lands c
  unshadowing : st.Unshadowing c
  straight : st.Straight c

/-- The statement is no `discard`. -/
def Stmt.Keeping (_ : Surroundings) : Stmt → Prop
  | .discard _ => False
  | _ => True

/-! ## What may run -/

/-- The node takes an address or calls a function only where that is allowed. -/
def Node.Admitted (C : Correspondence) : Node → Prop
  | .expr (.call _ name _) => C.calls name
  | .expr (.unary _ .addressOf _) => C.address
  | _ => True

section

variable {C : Correspondence} {S : String → Prop} {c : Surroundings}

theorem withName_of_all {name? : Option String} (hS : ∀ n, S n) : ∀ n, withName S name? n :=
  fun n => .inl (hS n)

mutual

theorem Expr.admitted_of_nodes (hS : ∀ n, S n) :
    ∀ e : Expr, (∀ n ∈ e.nodes, n.Admitted C) → e.Admitted C S
  | .literal .., _ => trivial
  | .var _ name, _ => hS name
  | .binary _ _ lhs rhs, h => by
    rw [Expr.nodes, List.forall_mem_cons, List.forall_mem_append] at h
    exact ⟨lhs.admitted_of_nodes hS h.2.1, rhs.admitted_of_nodes hS h.2.2⟩
  | .unary _ op operand, h => by
    rw [Expr.nodes, List.forall_mem_cons] at h
    refine ⟨?_, operand.admitted_of_nodes hS h.2⟩
    rintro rfl
    exact h.1
  | .call _ name args, h => by
    rw [Expr.nodes, List.forall_mem_cons] at h
    exact ⟨h.1, Expr.allAdmitted_of_nodes hS args h.2⟩
  | .construct _ type args, h => by
    rw [Expr.nodes, List.forall_mem_cons, List.forall_mem_append] at h
    exact Expr.allAdmitted_of_nodes hS args h.2.2
  | .bitcast _ type value, h => by
    rw [Expr.nodes, List.forall_mem_cons, List.forall_mem_append] at h
    exact value.admitted_of_nodes hS h.2.2
  | .index _ base i, h => by
    rw [Expr.nodes, List.forall_mem_cons, List.forall_mem_append] at h
    exact ⟨base.admitted_of_nodes hS h.2.1, i.admitted_of_nodes hS h.2.2⟩
  | .member _ base _, h => by
    rw [Expr.nodes, List.forall_mem_cons] at h
    exact base.admitted_of_nodes hS h.2
  | .group _ inner, h => by
    rw [Expr.nodes, List.forall_mem_cons] at h
    exact inner.admitted_of_nodes hS h.2

theorem Expr.allAdmitted_of_nodes (hS : ∀ n, S n) :
    ∀ es : List Expr, (∀ n ∈ Expr.listNodes es, n.Admitted C) → Expr.AllAdmitted C S es
  | [], _ => trivial
  | e :: rest, h => by
    rw [Expr.listNodes, List.forall_mem_append] at h
    exact ⟨e.admitted_of_nodes hS h.1, Expr.allAdmitted_of_nodes hS rest h.2⟩

end

theorem Expr.option_admitted_of_nodes (hS : ∀ n, S n) {e? : Option Expr}
    (h : ∀ n ∈ Expr.countNodes e?, n.Admitted C) : ∀ e ∈ e?, e.Admitted C S := by
  rintro e rfl
  exact e.admitted_of_nodes hS h

theorem VarDecl.admitted_of_nodes (hS : ∀ n, S n) {v : VarDecl}
    (h : ∀ n ∈ v.nodes, n.Admitted C) : ∀ e ∈ v.value, e.Admitted C S := by
  rw [VarDecl.nodes, List.forall_mem_append, List.forall_mem_append] at h
  exact Expr.option_admitted_of_nodes hS h.1.2

theorem SimpleStmt.admitted_of_nodes (hS : ∀ n, S n) {st : SimpleStmt}
    (h : ∀ n ∈ st.nodes, n.Admitted C) : st.action.Admitted C S := by
  unfold SimpleStmt.nodes at h
  cases ha : st.action with
  | declare kind v =>
    rw [ha] at h
    exact VarDecl.admitted_of_nodes hS h
  | assign op target value =>
    rw [ha] at h
    have parts := List.forall_mem_append.1 h
    exact ⟨Expr.option_admitted_of_nodes hS parts.1, value.admitted_of_nodes hS parts.2⟩
  | increment op target =>
    rw [ha] at h
    exact target.admitted_of_nodes hS h
  | call callee =>
    rw [ha] at h
    exact callee.admitted_of_nodes hS h

theorem SimpleStmt.option_admitted_of_nodes (hS : ∀ n, S n) {st? : Option SimpleStmt}
    (h : ∀ n ∈ st?.elim [] SimpleStmt.nodes, n.Admitted C) : ∀ st ∈ st?, st.action.Admitted C S := by
  rintro st rfl
  exact SimpleStmt.admitted_of_nodes hS h

mutual

/-- A statement may run if the nodes in it may; in a lax correspondence it holds no `discard`. -/
theorem Stmt.admitted_of_nodes : ∀ (st : Stmt) (S : String → Prop) (c : Surroundings),
    (∀ n, S n) → (∀ n ∈ st.nodes, n.Admitted C) → (C.lax → st.Everywhere Stmt.Keeping c) →
    st.Admitted C S
  | .simple st, S, c, hS, hn, hd => by
    rw [Stmt.nodes] at hn
    exact SimpleStmt.admitted_of_nodes hS hn
  | .ifElse _ cond body rest, S, c, hS, hn, hd => by
    rw [Stmt.nodes, List.forall_mem_append, List.forall_mem_append] at hn
    exact ⟨cond.admitted_of_nodes hS hn.1.1,
      Stmt.allAdmitted_of_nodes body S _ hS hn.1.2 fun hl => (hd hl).2.1,
      ElseChain.admitted_of_nodes rest S _ hS hn.2 fun hl => (hd hl).2.2⟩
  | .forLoop _ init cond update body, S, c, hS, hn, hd => by
    rw [Stmt.nodes, List.forall_mem_append, List.forall_mem_append, List.forall_mem_append] at hn
    obtain ⟨⟨⟨hinit, hcond⟩, hupdate⟩, hbody⟩ := hn
    have hS' : ∀ n, withName S (init.bind fun st => st.action.declares?) n := withName_of_all hS
    exact ⟨SimpleStmt.option_admitted_of_nodes hS hinit, Expr.option_admitted_of_nodes hS' hcond,
      SimpleStmt.option_admitted_of_nodes hS' hupdate,
      Stmt.allAdmitted_of_nodes body _ _ hS' hbody fun hl => (hd hl).2⟩
  | .whileLoop _ cond body, S, c, hS, hn, hd => by
    rw [Stmt.nodes, List.forall_mem_append] at hn
    exact ⟨cond.admitted_of_nodes hS hn.1,
      Stmt.allAdmitted_of_nodes body S _ hS hn.2 fun hl => (hd hl).2⟩
  | .loop _ body continuing, S, c, hS, hn, hd => by
    rw [Stmt.nodes, List.forall_mem_append] at hn
    exact ⟨Stmt.allAdmitted_of_nodes body S _ hS hn.1 fun hl => (hd hl).2.1,
      Stmt.partAdmitted_of_nodes continuing S _ hS hn.2 fun hl => (hd hl).2.2⟩
  | .switch _ selector clauses, S, c, hS, hn, hd => by
    rw [Stmt.nodes, List.forall_mem_append] at hn
    exact ⟨selector.admitted_of_nodes hS hn.1,
      SwitchClause.allAdmitted_of_nodes clauses S _ hS hn.2 fun hl => (hd hl).2⟩
  | .block _ body, S, c, hS, hn, hd => by
    rw [Stmt.nodes] at hn
    exact Stmt.allAdmitted_of_nodes body S _ hS hn fun hl => (hd hl).2
  | .return_ _ value, S, c, hS, hn, hd => by
    rw [Stmt.nodes] at hn
    exact Expr.option_admitted_of_nodes hS hn
  | .breakIf _ cond, S, c, hS, hn, hd => by
    rw [Stmt.nodes] at hn
    exact cond.admitted_of_nodes hS hn
  | .constAssert _ cond, S, c, hS, hn, hd => by
    rw [Stmt.nodes] at hn
    exact cond.admitted_of_nodes hS hn
  | .discard _, S, c, hS, hn, hd => fun hl => hd hl
  | .break_ _, _, _, _, _, _ => trivial
  | .continue_ _, _, _, _, _, _ => trivial

theorem Stmt.allAdmitted_of_nodes : ∀ (body : List Stmt) (S : String → Prop) (c : Surroundings),
    (∀ n, S n) → (∀ n ∈ Stmt.listNodes body, n.Admitted C) →
    (C.lax → Stmt.AllEverywhere Stmt.Keeping c body) → Stmt.AllAdmitted C S body
  | [], _, _, _, _, _ => trivial
  | st :: rest, S, c, hS, hn, hd => by
    rw [Stmt.listNodes, List.forall_mem_append] at hn
    exact ⟨Stmt.admitted_of_nodes st S c hS hn.1 fun hl => (hd hl).1,
      Stmt.allAdmitted_of_nodes rest _ c (withName_of_all hS) hn.2 fun hl => (hd hl).2⟩

theorem Stmt.partAdmitted_of_nodes :
    ∀ (body : Option (List Stmt)) (S : String → Prop) (c : Surroundings),
    (∀ n, S n) → (∀ n ∈ Stmt.blockNodes body, n.Admitted C) →
    (C.lax → Stmt.PartEverywhere Stmt.Keeping c body) → Stmt.PartAdmitted C S body
  | none, _, _, _, _, _ => trivial
  | some body, S, c, hS, hn, hd => Stmt.allAdmitted_of_nodes body S c hS hn hd

theorem ElseChain.admitted_of_nodes : ∀ (rest : ElseChain) (S : String → Prop) (c : Surroundings),
    (∀ n, S n) → (∀ n ∈ rest.nodes, n.Admitted C) → (C.lax → rest.Everywhere Stmt.Keeping c) →
    rest.Admitted C S
  | .none, _, _, _, _, _ => trivial
  | .else_ body, S, c, hS, hn, hd => by
    rw [ElseChain.nodes] at hn
    exact Stmt.allAdmitted_of_nodes body S _ hS hn hd
  | .elseIf _ cond body rest, S, c, hS, hn, hd => by
    rw [ElseChain.nodes, List.forall_mem_append, List.forall_mem_append] at hn
    exact ⟨cond.admitted_of_nodes hS hn.1.1,
      Stmt.allAdmitted_of_nodes body S _ hS hn.1.2 fun hl => (hd hl).1,
      ElseChain.admitted_of_nodes rest S _ hS hn.2 fun hl => (hd hl).2⟩

theorem SwitchClause.allAdmitted_of_nodes :
    ∀ (clauses : List SwitchClause) (S : String → Prop) (c : Surroundings),
    (∀ n, S n) → (∀ n ∈ SwitchClause.listNodes clauses, n.Admitted C) →
    (C.lax → SwitchClause.AllEverywhere Stmt.Keeping c clauses) →
    SwitchClause.AllAdmitted C S clauses
  | [], _, _, _, _, _ => trivial
  | .mk _ selectors _ body :: rest, S, c, hS, hn, hd => by
    rw [SwitchClause.listNodes, SwitchClause.nodes, List.forall_mem_append,
      List.forall_mem_append] at hn
    exact ⟨Expr.allAdmitted_of_nodes hS selectors hn.1.1,
      Stmt.allAdmitted_of_nodes body S _ hS hn.1.2 fun hl => (hd hl).1,
      SwitchClause.allAdmitted_of_nodes rest S c hS hn.2 fun hl => (hd hl).2⟩

end

end

end Wgsl
