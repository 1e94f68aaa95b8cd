import Wgsl.Proofs.Layout.Rules
import Wgsl.Proofs.Machine.Halting

/-! # Nothing runs after a discard

A discard in a called function ends the invocation at the statement of the call, but only once that
statement has been evaluated. Nothing more is run if no function is called after one that may
discard.

* `Stmt.Orderly`: no function is called after one that may discard, and no condition or header goes
  on after such a call.
* `Eval.halts_stmt`: an orderly statement halts at its first discard, by one case for each form.
* `Shader.MayDiscard`: the functions in which a `discard` may be met.
* `Eval.ordered_callWithin`: by induction over the depth of calls.
* `Exec.nothing_after_discard`: an invocation of an orderly shader halts at its first discard.
-/

namespace Wgsl
set_option autoImplicit false

/-! ## Orderly statements -/

/-- The conditions of the branches that follow have no truth once a call in them has discarded. -/
def ElseChain.Surfaces (s : Shader) (risky : String → Prop) : ElseChain → Prop
  | .none => True
  | .else_ _ => True
  | .elseIf _ cond _ rest => cond.Surfaces s risky ∧ ElseChain.Surfaces s risky rest

/-- A simple statement without a risky call. -/
def SimpleStmt.Safe (s : Shader) (risky : String → Prop) (st : SimpleStmt) : Prop :=
  ∀ n ∈ st.action.callOrder s, ¬risky n

/-- Of the calls that a statement makes itself, at most the last is risky. A condition has no truth
once its call has discarded, the selector of a `switch` is compared with something then, and the
header of a `for` has no such call. -/
def Stmt.Orderly (s : Shader) (risky : String → Prop) (_ : Surroundings) : Stmt → Prop
  | .simple st => ∀ n ∈ (st.action.callOrder s).dropLast, ¬risky n
  | .ifElse _ cond _ rest => cond.Surfaces s risky ∧ rest.Surfaces s risky
  | .forLoop _ init cond update _ => (∀ st ∈ init, st.Safe s risky) ∧
      (∀ e ∈ cond, e.Surfaces s risky) ∧ ∀ st ∈ update, st.Safe s risky
  | .whileLoop _ cond _ => cond.Surfaces s risky
  | .switch _ selector clauses =>
    (∀ n ∈ selector.callOrder s ++ SwitchClause.callOrder s clauses, ¬risky n) ∨
      (selector.Surfaces s risky ∧ SwitchClause.callOrder s clauses = [] ∧
        ∃ c ∈ clauses, c.selectors ≠ [])
  | .return_ _ value => ∀ e ∈ value, ∀ n ∈ (e.callOrder s).dropLast, ¬risky n
  | .breakIf _ cond => ∀ n ∈ (cond.callOrder s).dropLast, ¬risky n
  | .constAssert _ cond => ∀ n ∈ (cond.callOrder s).dropLast, ¬risky n
  | .loop .. | .block .. | .break_ _ | .continue_ _ | .discard _ => True

/-- If a risky function is called, something may be discarded. -/
def Mention.Admit (risky : String → Prop) (may : Prop) (mentions : List Mention) : Prop :=
  ∀ n, .call n ∈ mentions → risky n → may

section

variable {risky : String → Prop} {may : Prop} {s : Shader}

@[simp] theorem Mention.admit_append {l l' : List Mention} :
    Admit risky may (l ++ l') ↔ Admit risky may l ∧ Admit risky may l' := by
  refine ⟨fun h => ⟨fun n hn => h n (List.mem_append_left _ hn),
    fun n hn => h n (List.mem_append_right _ hn)⟩, fun h n hn => ?_⟩
  exact (List.mem_append.1 hn).elim (h.1 n) (h.2 n)

theorem Mention.admit_of_scope {l : List Mention}
    (h : Admit risky may (.enter :: (l ++ [.leave]))) : Admit risky may l :=
  fun n hn => h n (List.mem_cons_of_mem _ (List.mem_append_left _ hn))

theorem Mention.admit_of_block {body : List Stmt} (h : Admit risky may (Stmt.blockMentions body)) :
    Admit risky may (Stmt.listMentions body) := by
  rw [Stmt.blockMentions] at h
  exact admit_of_scope h

mutual

/-- The functions that an expression calls are mentioned in it. -/
theorem Expr.mentions_of_callOrder {n : String} :
    ∀ e : Expr, n ∈ e.callOrder s → .call n ∈ e.mentions
  | .literal .., h => by cases h
  | .var .., h => by cases h
  | .binary _ _ lhs rhs, h => by
    rw [Expr.callOrder, List.mem_append] at h
    rw [Expr.mentions, List.mem_append]
    exact h.imp lhs.mentions_of_callOrder rhs.mentions_of_callOrder
  | .unary _ _ operand, h => by
    rw [Expr.callOrder] at h
    rw [Expr.mentions]
    exact operand.mentions_of_callOrder h
  | .call _ name args, h => by
    rw [Expr.callOrder, List.mem_append] at h
    rw [Expr.mentions, List.mem_cons]
    obtain h | h := h
    · exact .inr (Expr.listMentions_of_callOrder args h)
    · split at h
      · rw [List.mem_singleton.1 h]
        exact .inl rfl
      · cases h
  | .construct _ _ args, h => by
    rw [Expr.callOrder] at h
    rw [Expr.mentions]
    exact List.mem_cons_of_mem _ (Expr.listMentions_of_callOrder args h)
  | .bitcast _ _ value, h => by
    rw [Expr.callOrder] at h
    rw [Expr.mentions]
    exact List.mem_cons_of_mem _ (value.mentions_of_callOrder h)
  | .index _ base i, h => by
    rw [Expr.callOrder, List.mem_append] at h
    rw [Expr.mentions, List.mem_append]
    exact h.imp base.mentions_of_callOrder i.mentions_of_callOrder
  | .member _ base _, h => by
    rw [Expr.callOrder] at h
    rw [Expr.mentions]
    exact base.mentions_of_callOrder h
  | .group _ e, h => by
    rw [Expr.callOrder] at h
    rw [Expr.mentions]
    exact e.mentions_of_callOrder h

theorem Expr.listMentions_of_callOrder {n : String} :
    ∀ es : List Expr, n ∈ Expr.listCallOrder s es → .call n ∈ Expr.listMentions es
  | [], h => by cases h
  | e :: rest, h => by
    rw [Expr.listCallOrder, List.mem_append] at h
    rw [Expr.listMentions, List.mem_append]
    exact h.imp e.mentions_of_callOrder (Expr.listMentions_of_callOrder rest)

end

theorem Expr.may_of_mentions {e : Expr} (h : Mention.Admit risky may e.mentions) :
    ∀ n ∈ e.callOrder s, risky n → may :=
  fun n hn => h n (e.mentions_of_callOrder hn)

theorem SimpleStmt.may_of_mentions {st : SimpleStmt} (h : Mention.Admit risky may st.mentions) :
    ∀ n ∈ st.action.callOrder s, risky n → may := by
  unfold SimpleStmt.mentions at h
  cases ha : st.action with
  | declare kind v =>
    rw [ha] at h
    intro n hn
    change n ∈ v.value.elim [] (Expr.callOrder s) at hn
    refine h n (List.mem_append_left _ (List.mem_append_left _ ?_))
    cases hv : v.value with
    | none =>
      rw [hv] at hn
      cases hn
    | some e =>
      rw [hv] at hn
      exact e.mentions_of_callOrder hn
  | assign op target value =>
    rw [ha] at h
    obtain ⟨htarget, hvalue⟩ := Mention.admit_append.1 h
    intro n hn
    obtain hn | hn := List.mem_append.1 hn
    · cases target with
      | none => cases hn
      | some e => exact htarget n (e.mentions_of_callOrder hn)
    · exact hvalue n (value.mentions_of_callOrder hn)
  | increment op target =>
    rw [ha] at h
    exact target.may_of_mentions h
  | call callee =>
    rw [ha] at h
    exact callee.may_of_mentions h

end

/-! ## Statements -/

namespace Eval

section

variable {s : Shader} {risky : String → Prop} {may : Prop} {call call' : Caller} (stop : Fault)
  (hcall : AnswersOrdered s risky call call')
  (hmuted : ∀ name f args, s.function? name = some f → Muted (call f args))

include hcall

theorem halts_simple {scope : ScopeId} {st : SimpleStmt}
    (hlast : ∀ n ∈ (st.action.callOrder s).dropLast, ¬risky n)
    (hmay : ∀ n ∈ st.action.callOrder s, risky n → may) :
    Exec.Halts may Flow.isDiscard (simple s call scope st)
      ((Halting.hooks stop).simple s call' scope st) := by
  unfold Hooks.simple
  rw [(Halting.sameValues stop).action_eq]
  refine .begun stop (halts_settled st.line ?_)
  exact heeds_of_ordered (g := fun _ => .normal) (ordered_action hcall st.action) hlast hmay
    fun _ => rfl

/-- A simple statement in a header discards nothing. -/
theorem halts_header {scope : ScopeId} {st? : Option SimpleStmt}
    (h : ∀ st ∈ st?, st.Safe s risky) :
    Exec.Halts may (fun _ => false) (header s call scope st?)
      ((Halting.hooks stop).header s call' scope st?) := by
  cases st? with
  | none => exact Exec.heeds_pure rfl
  | some st =>
    have safe := h st rfl
    have simple : Exec.Halts False Flow.isDiscard (simple s call scope st)
        ((Halting.hooks stop).simple s call' scope st) :=
      halts_simple stop hcall (fun n hn => safe n (List.mem_of_mem_dropLast hn))
        fun n hn hr => safe n hn hr
    exact simple.bind (fun _ _ => Exec.heeds_pure rfl) fun _ hf => hf.1.elim

theorem halts_return {scope : ScopeId} {line : Nat} {e : Expr}
    (hlast : ∀ n ∈ (e.callOrder s).dropLast, ¬risky n) (hmay : ∀ n ∈ e.callOrder s, risky n → may) :
    Exec.Halts may Flow.isDiscard
      (settled line do return .return_ (some (← expr s call scope e)))
      (settled line do return .return_ (some (← (Halting.hooks stop).expr s call' scope e))) := by
  rw [(Halting.sameValues stop).expr_eq]
  refine halts_settled line ?_
  exact heeds_of_ordered (g := fun v => .return_ (some v)) (ordered_expr hcall e) hlast hmay
    fun _ => rfl

theorem halts_breakIf {scope : ScopeId} {line : Nat} {e : Expr}
    (hlast : ∀ n ∈ (e.callOrder s).dropLast, ¬risky n) (hmay : ∀ n ∈ e.callOrder s, risky n → may) :
    Exec.Halts may Flow.isDiscard
      (settled line do if ← condition s call scope e then return .break_ else return .normal)
      (settled line do
        if ← (Halting.hooks stop).condition s call' scope e then return .break_
        else return .normal) := by
  have branch : ∀ x : Eval Bool, (do if ← x then return .break_ else return .normal) =
      x >>= fun holds => pure (if holds then Flow.break_ else Flow.normal) := by
    intro x
    congr 1
    funext holds
    cases holds <;> rfl
  rw [(Halting.sameValues stop).condition_eq, branch, branch]
  refine halts_settled line (heeds_of_ordered ?_ hlast hmay fun holds => ?_)
  · exact (ordered_expr hcall e).bind_calm fun v => calm_lift _
  · cases holds <;> rfl

theorem halts_constAssert {scope : ScopeId} {line : Nat} {e : Expr}
    (hlast : ∀ n ∈ (e.callOrder s).dropLast, ¬risky n) (hmay : ∀ n ∈ e.callOrder s, risky n → may) :
    Exec.Halts may Flow.isDiscard
      (settled line do
        constAssert s call scope e
        return .normal)
      (settled line do
        (Halting.hooks stop).constAssert s call' scope e
        return .normal) := by
  rw [(Halting.sameValues stop).constAssert_eq]
  refine halts_settled line ?_
  refine heeds_of_ordered (g := fun _ => .normal) ?_ hlast hmay fun _ => rfl
  refine (ordered_expr hcall e).bind_calm fun v => calm_bind (calm_lift _) fun holds => ?_
  cases holds with
  | true => exact calm_pure _
  | false => exact calm_throw _

omit hcall in
/-- A `discard` marks the machine where the other run only says so. -/
theorem halts_discard (line : Nat) (hmay : may) :
    Exec.Halts may Flow.isDiscard (settled line (return .discard))
      ((Halting.hooks stop).discard line) := by
  refine ⟨fun m hm => ?_, fun m flow m₁ hm hrun _ => ?_⟩
  · rw [settled_ok (x := pure .discard) rfl hm]
    rfl
  · rw [settled_ok (x := pure .discard) rfl hm] at hrun
    cases hrun
    exact ⟨hmay, rfl⟩

include hmuted

theorem halts_condition {scope : ScopeId} {e : Expr} (h : e.Surfaces s risky)
    (hmay : ∀ n ∈ e.callOrder s, risky n → may) :
    Halts may (fun _ => false) (condition s call scope e)
      ((Halting.hooks stop).condition s call' scope e) := by
  rw [(Halting.sameValues stop).condition_eq]
  have muted : Muted (expr s call scope e) := muted_expr hcall hmuted h
  refine halts_of_muted (ordered_expr hcall e) h.last hmay muted (fun v => calm_lift _) ?_
  intro v hv m a m₁ hrun
  cases ht : v.truth with
  | ok b => exact Value.truth_hollow hv b ht
  | error e =>
    rw [ht] at hrun
    cases hrun

theorem halts_goesOn {scope : ScopeId} {e? : Option Expr} (h : ∀ e ∈ e?, e.Surfaces s risky)
    (hmay : Mention.Admit risky may (e?.elim [] Expr.mentions)) :
    Halts may (fun _ => false) (goesOn s call scope e?)
      ((Halting.hooks stop).goesOn s call' scope e?) := by
  cases e? with
  | none => exact halts_pure rfl
  | some e => exact halts_condition stop hcall hmuted (h e rfl) (Expr.may_of_mentions hmay)

omit hcall hmuted in
/-- Falling back on the default clause evaluates nothing. -/
theorem calm_chosen (chosen : Option Nat) (clauses : List SwitchClause) : Exec.Calm (match chosen with
    | some i => pure (some i)
    | none => pure (clauses.findIdx? SwitchClause.isDefault) : Eval (Option Nat)).run := by
  cases chosen <;> exact calm_pure _

theorem halts_chosenClause? {scope : ScopeId} {line : Nat} {c : Surroundings} {selector : Expr}
    {clauses : List SwitchClause} (h : (Stmt.switch line selector clauses).Orderly s risky c)
    (hmay : ∀ n ∈ selector.callOrder s, risky n → may) :
    Halts may (fun _ => false) (chosenClause? s call scope selector clauses)
      ((Halting.hooks stop).chosenClause? s call' scope selector clauses) := by
  rw [(Halting.sameValues stop).chosenClause?_eq]
  have default := fun chosen => calm_chosen chosen clauses
  obtain h | ⟨hs, hnone, c, hc, hsome⟩ := h
  · refine halts_of_calm ?_ h
    refine (ordered_expr hcall selector).bind fun v => ?_
    exact (ordered_selected? hcall v clauses).bind_calm default
  · have selecting : ∀ v, Ordered risky (SwitchClause.callOrder s clauses)
        (selected? s call scope v clauses) (selected? s call' scope v clauses) :=
      fun v => ordered_selected? hcall v clauses
    have same : ∀ v, selected? s call' scope v clauses = selected? s call scope v clauses :=
      fun v => (selecting v).same hnone
    have muted : Muted (expr s call scope selector) := muted_expr hcall hmuted hs
    unfold chosenClause?
    simp only [same]
    refine halts_of_muted (ordered_expr hcall selector) hs.last hmay muted (fun v => ?_) ?_
    · refine calm_bind ((selecting v).calm fun n hn => ?_) default
      rw [hnone] at hn
      cases hn
    · intro v hv m a m₁ hrun
      obtain ⟨i, m₂, hselected, -⟩ := run_bind_ok hrun
      exact hsome (selectors_of_selected? hv hselected c hc)

mutual

/-- An orderly statement halts at its first discard. -/
theorem halts_stmt : ∀ (st : Stmt) (c : Surroundings) (scope : ScopeId),
    st.Everywhere (Stmt.Orderly s risky) c → (¬may → st.Everywhere Stmt.Keeping c) →
    Mention.Admit risky may st.mentions →
    Exec.Halts may Flow.isDiscard (stmt s call scope st)
      ((Halting.hooks stop).stmt s call' scope st)
  | .simple st, c, scope, h, _, hm => by
    rw [Stmt.mentions] at hm
    rw [stmt, Hooks.stmt]
    exact halts_simple stop hcall h (SimpleStmt.may_of_mentions hm)
  | .ifElse line cond body rest, c, scope, h, hk, hm => by
    simp only [Stmt.mentions, Mention.admit_append] at hm
    have first : Halts may (fun _ => false) (condition s call scope cond)
        ((Halting.hooks stop).condition s call' scope cond) :=
      halts_condition stop hcall hmuted h.1.1 (Expr.may_of_mentions hm.1.1)
    rw [stmt, Hooks.stmt]
    refine .begun stop (Halts.settled line (first.next fun holds => ?_))
    cases holds with
    | true =>
      exact halts_inBlock fun scope => halts_stmts body _ scope h.2.1 (fun hn => (hk hn).2.1)
        (Mention.admit_of_block hm.1.2)
    | false => exact halts_elseChain rest c scope h.1.2 h.2.2 (fun hn => (hk hn).2.2) hm.2
  | .forLoop line init cond update body, c, scope, h, hk, hm => by
    rw [Stmt.mentions] at hm
    replace hm := Mention.admit_of_scope hm
    simp only [Mention.admit_append] at hm
    obtain ⟨⟨hinit, hcond, hupdate⟩, hbody⟩ := h
    rw [stmt, Hooks.stmt]
    refine .begun stop (Halts.settled line (halts_inScope fun scope => ?_))
    refine (halts_ofExec (halts_header stop hcall hinit)).next fun _ => halts_rounds ?_ _
    refine halts_forRound (halts_goesOn stop hcall hmuted hcond hm.1.1.2) (halts_inBlock fun scope => ?_)
      (halts_ofExec (halts_header stop hcall hupdate))
    exact halts_stmts body _ scope hbody (fun hn => (hk hn).2) (Mention.admit_of_block hm.2)
  | .whileLoop line cond body, c, scope, h, hk, hm => by
    simp only [Stmt.mentions, Mention.admit_append] at hm
    rw [stmt, Hooks.stmt]
    refine .begun stop (Halts.settled line (halts_rounds ?_ _))
    refine halts_whileRound (halts_condition stop hcall hmuted h.1 (Expr.may_of_mentions hm.1))
      (halts_inBlock fun scope => ?_)
    exact halts_stmts body _ scope h.2 (fun hn => (hk hn).2) (Mention.admit_of_block hm.2)
  | .loop line body continuing, c, scope, h, hk, hm => by
    simp only [Stmt.mentions, Mention.admit_append] at hm
    rw [stmt, Hooks.stmt]
    refine .begun stop (Halts.settled line (halts_rounds (halts_loopRound (fun scope => ?_)
      fun scope => ?_) _))
    · exact halts_stmts body _ scope h.2.1 (fun hn => (hk hn).2.1) (Mention.admit_of_block hm.1)
    · exact halts_continuingPart continuing _ scope h.2.2 (fun hn => (hk hn).2.2) hm.2
  | .switch line selector clauses, c, scope, h, hk, hm => by
    simp only [Stmt.mentions, Mention.admit_append] at hm
    rw [stmt, Hooks.stmt]
    refine .begun stop (Halts.settled line (halts_chosen ?_ fun i => ?_))
    · exact halts_chosenClause? stop hcall hmuted h.1 (Expr.may_of_mentions hm.1)
    · exact halts_clauseAt clauses _ scope i h.2 (fun hn => (hk hn).2) hm.2
  | .block line body, c, scope, h, hk, hm => by
    rw [Stmt.mentions] at hm
    rw [stmt, Hooks.stmt]
    exact .begun stop (Halts.settled line (halts_inBlock fun scope =>
      halts_stmts body _ scope h.2 (fun hn => (hk hn).2) (Mention.admit_of_block hm)))
  | .return_ line none, _, scope, _, _, _ => by
    rw [stmt, Hooks.stmt]
    exact .begun stop (Halts.settled line (halts_pure rfl))
  | .return_ line (some e), _, scope, h, _, hm => by
    rw [Stmt.mentions] at hm
    rw [stmt, Hooks.stmt]
    exact .begun stop (halts_return stop hcall (h e rfl) (Expr.may_of_mentions hm))
  | .break_ line, _, scope, _, _, _ => by
    rw [stmt, Hooks.stmt]
    exact .begun stop (Halts.settled line (halts_pure rfl))
  | .breakIf line cond, _, scope, h, _, hm => by
    rw [Stmt.mentions] at hm
    rw [stmt, Hooks.stmt]
    exact .begun stop (halts_breakIf stop hcall h (Expr.may_of_mentions hm))
  | .continue_ line, _, scope, _, _, _ => by
    rw [stmt, Hooks.stmt]
    exact .begun stop (Halts.settled line (halts_pure rfl))
  | .discard line, _, scope, _, hk, _ => by
    rw [stmt, Hooks.stmt]
    exact .begun stop (halts_discard stop line (Classical.byContradiction fun hn => hk hn))
  | .constAssert line cond, _, scope, h, _, hm => by
    rw [Stmt.mentions] at hm
    rw [stmt, Hooks.stmt]
    exact .begun stop (halts_constAssert stop hcall h (Expr.may_of_mentions hm))

theorem halts_stmts : ∀ (body : List Stmt) (c : Surroundings) (scope : ScopeId),
    Stmt.AllEverywhere (Stmt.Orderly s risky) c body →
    (¬may → Stmt.AllEverywhere Stmt.Keeping c body) →
    Mention.Admit risky may (Stmt.listMentions body) →
    Exec.Halts may Flow.isDiscard (stmts s call scope body)
      ((Halting.hooks stop).stmts s call' scope body)
  | [], _, scope, _, _, _ => by
    rw [stmts, Hooks.stmts]
    exact Exec.heeds_pure rfl
  | st :: rest, c, scope, h, hk, hm => by
    rw [Stmt.listMentions, Mention.admit_append] at hm
    rw [stmts, Hooks.stmts]
    refine (halts_stmt st c scope h.1 (fun hn => (hk hn).1) hm.1).bind_flow (fun flow hf => ?_)
      rfl rfl rfl fun hmay => ⟨hmay, rfl⟩
    cases flow with
    | normal => exact halts_stmts rest c scope h.2 (fun hn => (hk hn).2) hm.2
    | discard => cases hf
    | _ => exact Exec.heeds_pure rfl

theorem halts_continuingPart : ∀ (body : Option (List Stmt)) (c : Surroundings) (scope : ScopeId),
    Stmt.PartEverywhere (Stmt.Orderly s risky) c body →
    (¬may → Stmt.PartEverywhere Stmt.Keeping c body) →
    Mention.Admit risky may (Stmt.continuingMentions body) →
    Exec.Halts may Flow.isDiscard (continuingPart s call scope body)
      ((Halting.hooks stop).continuingPart s call' scope body)
  | none, _, scope, _, _, _ => by
    rw [continuingPart, Hooks.continuingPart]
    exact Exec.heeds_pure rfl
  | some body, c, scope, h, hk, hm => by
    rw [Stmt.continuingMentions] at hm
    rw [continuingPart, Hooks.continuingPart]
    exact halts_stmts body c scope h hk (Mention.admit_of_scope hm)

theorem halts_elseChain : ∀ (rest : ElseChain) (c : Surroundings) (scope : ScopeId),
    rest.Surfaces s risky → rest.Everywhere (Stmt.Orderly s risky) c →
    (¬may → rest.Everywhere Stmt.Keeping c) → Mention.Admit risky may rest.mentions →
    Halts may Flow.isDiscard (elseChain s call scope rest)
      ((Halting.hooks stop).elseChain s call' scope rest)
  | .none, _, scope, _, _, _, _ => by
    rw [elseChain, Hooks.elseChain]
    exact halts_pure rfl
  | .else_ body, c, scope, _, h, hk, hm => by
    rw [ElseChain.mentions] at hm
    rw [elseChain, Hooks.elseChain]
    exact halts_inBlock fun scope => halts_stmts body _ scope h hk (Mention.admit_of_scope hm)
  | .elseIf _ cond body rest, c, scope, hs, h, hk, hm => by
    simp only [ElseChain.mentions, Mention.admit_append] at hm
    rw [elseChain, Hooks.elseChain]
    refine (halts_condition stop hcall hmuted hs.1 (Expr.may_of_mentions hm.1.1)).next fun holds => ?_
    cases holds with
    | true =>
      exact halts_inBlock fun scope => halts_stmts body _ scope h.1 (fun hn => (hk hn).1)
        (Mention.admit_of_scope hm.1.2)
    | false => exact halts_elseChain rest c scope hs.2 h.2 (fun hn => (hk hn).2) hm.2

theorem halts_clauseAt : ∀ (clauses : List SwitchClause) (c : Surroundings) (scope : ScopeId)
    (i : Nat), SwitchClause.AllEverywhere (Stmt.Orderly s risky) c clauses →
    (¬may → SwitchClause.AllEverywhere Stmt.Keeping c clauses) →
    Mention.Admit risky may (SwitchClause.mentions clauses) →
    Exec.Halts may Flow.isDiscard (clauseAt s call scope clauses i)
      ((Halting.hooks stop).clauseAt s call' scope clauses i)
  | [], _, scope, i, _, _, _ => by
    rw [clauseAt, Hooks.clauseAt]
    exact Exec.heeds_pure rfl
  | .mk _ _ _ body :: rest, c, scope, i, h, hk, hm => by
    simp only [SwitchClause.mentions, Mention.admit_append] at hm
    cases i with
    | zero =>
      rw [clauseAt, Hooks.clauseAt]
      exact Exec.heeds_inScope fun scope => halts_stmts body _ scope h.1 (fun hn => (hk hn).1)
        (Mention.admit_of_scope hm.1.2)
    | succ i =>
      rw [clauseAt, Hooks.clauseAt]
      exact halts_clauseAt rest c scope i h.2 (fun hn => (hk hn).2) hm.2

end

end

/-! ## Calls -/

/-- A body that halts leaves nothing to see after the call: the mark that it sets is set by the call
anyway. A call that discards gives no value. -/
theorem run_callValue {may : Prop} {x x' : Exec Flow} (h : Exec.Halts may Flow.isDiscard x x')
    (f : Function) {m : Machine} (hm : m.discarded = false) :
    (ofExec x' >>= callValue f).run m = (ofExec x >>= callValue f).run m ∧
      ∀ r m₁, (ofExec x >>= callValue f).run m = .ok (r, m₁) → m₁.discarded = true →
        may ∧ ∀ v, r = .ok v → v.Hollow := by
  have run : ∀ x : Exec Flow, (ofExec x >>= callValue f).run m =
      (x m >>= fun r => (callValue f r.1).run r.2) := by
    intro x
    rw [ExceptT.run_bind]
    change ((x m >>= _) >>= _) = _
    cases x m <;> rfl
  rw [run, run, h.follows m hm]
  cases hx : x m with
  | error fault => exact ⟨rfl, nofun⟩
  | ok r =>
    obtain ⟨flow, m₁⟩ := r
    change (callValue f flow).run (Exec.noted Flow.isDiscard (flow, m₁)).2 =
      (callValue f flow).run m₁ ∧ ∀ r m₂, (callValue f flow).run m₁ = .ok (r, m₂) → _
    cases hf : flow.isDiscard with
    | true =>
      obtain rfl := Flow.eq_discard hf
      refine ⟨rfl, ?_⟩
      rintro r m₂ ⟨⟩ -
      refine ⟨(h.ends m .discard m₁ hm hx (.inr rfl)).1, ?_⟩
      rintro v ⟨⟩
      exact .void
    | false =>
      have undiscarded : m₁.discarded = false := by
        by_contra hd
        have marked := (h.ends m flow m₁ hm hx (.inl (Bool.not_eq_false _ ▸ hd))).2
        rw [hf] at marked
        cases marked
      have calm : Exec.Calm (callValue f flow).run := by
        unfold callValue
        split
        · exact calm_returnValue f _
        · cases hf
        · exact calm_pure _
      rw [Exec.noted_of_not hf]
      refine ⟨rfl, fun r m₂ hrun hd => ?_⟩
      rw [calm m₁ r m₂ undiscarded hrun] at hd
      cases hd

end Eval

/-- The functions in which a `discard` may be met: one stands in the function, or in another one
that is called from it. -/
inductive Shader.MayDiscard (s : Shader) : String → Prop
  | own {name : String} {f : Function} : s.function? name = some f →
    ¬f.Everywhere Stmt.Keeping s.program → MayDiscard s name
  | through {name callee : String} {f : Function} : s.function? name = some f →
    .call callee ∈ Stmt.listMentions f.body → MayDiscard s callee → MayDiscard s name

/-- All statements of the functions are orderly, when the functions that may discard are risky. -/
def Shader.Orderly (s : Shader) : Prop :=
  ∀ name f, s.function? name = some f → f.Everywhere (Stmt.Orderly s s.MayDiscard) s.program

namespace Eval

variable {s : Shader}

/-- The body of a function halts if calls are answered alike. -/
theorem halts_body (h : s.Orderly) (stop : Fault) {call call' : Caller}
    (hcall : AnswersOrdered s s.MayDiscard call call')
    (hmuted : ∀ name f args, s.function? name = some f → Muted (call f args)) {name : String}
    {f : Function} (hf : s.function? name = some f) (scope : ScopeId) :
    Exec.Halts (s.MayDiscard name) Flow.isDiscard (stmts s call scope f.body)
      ((Halting.hooks stop).stmts s call' scope f.body) := by
  refine halts_stmts stop hcall hmuted f.body (f.surroundings s.program) scope (h name f hf) ?_ ?_
  · exact fun hnot => Classical.byContradiction fun hk => hnot (.own hf hk)
  · exact fun callee hc hr => .through hf hc hr

/-- Calls are answered alike by both runs, however many may nest. -/
theorem ordered_callWithin (h : s.Orderly) (stop : Fault) (budget : Nat) :
    AnswersOrdered s s.MayDiscard (callWithin s budget) ((Halting.hooks stop).callWithin s budget) ∧
      ∀ name f args, s.function? name = some f → Muted (callWithin s budget f args) := by
  induction budget with
  | zero =>
    exact ⟨fun _ _ _ _ => ordered_refl (calm_throw _), fun _ _ _ _ => muted_of_calm (calm_throw _)⟩
  | succ budget ih =>
    have both : ∀ name f args, s.function? name = some f → ∀ m, m.discarded = false →
        ((Halting.hooks stop).callWithin s (budget + 1) f args).run m =
          (callWithin s (budget + 1) f args).run m ∧
        ∀ r m₁, (callWithin s (budget + 1) f args).run m = .ok (r, m₁) → m₁.discarded = true →
          s.MayDiscard name ∧ ∀ v, r = .ok v → v.Hollow := by
      intro name f args hf m hm
      rw [callWithin, Hooks.callWithin]
      beta_reduce
      rw [(Halting.sameValues stop).bindCall_eq, (Halting.sameValues stop).callValue_eq,
        get_bind_run, get_bind_run]
      split
      · refine ⟨rfl, fun r m₁ hrun hd => ?_⟩
        rw [calm_throw (tooDeep f) m r m₁ hm hrun] at hd
        cases hd
      · rw [ExceptT.run_bind, ExceptT.run_bind]
        change ((bindCall f args).run m >>= _) = ((bindCall f args).run m >>= _) ∧
          ∀ r m₁, ((bindCall f args).run m >>= _) = _ → _
        cases hbind : (bindCall f args).run m with
        | error fault => exact ⟨rfl, fun _ _ hrun => by cases hrun⟩
        | ok r =>
          obtain ⟨outcome, m₁⟩ := r
          have undiscarded := calm_bindCall f args m outcome m₁ hm hbind
          cases outcome with
          | error e =>
            refine ⟨rfl, ?_⟩
            rintro r m₂ ⟨⟩ hd
            rw [undiscarded] at hd
            cases hd
          | ok scope =>
            have body := halts_body h stop ih.1 ih.2 hf scope
            exact run_callValue (Exec.heeds_popScope scope (Exec.heeds_nested body)) f undiscarded
    refine ⟨fun name f args hf => ⟨fun h => absurd h (List.cons_ne_nil _ _), fun hn m r m₁ hm hrun => ?_, fun _ m hm => ?_⟩, ?_⟩
    · by_contra hd
      exact hn name (List.mem_singleton_self name)
        ((both name f args hf m hm).2 r m₁ hrun (Bool.not_eq_false _ ▸ hd)).1
    · exact (both name f args hf m hm).1
    · intro name f args hf m v m₁ hm hrun hd
      exact ((both name f args hf m hm).2 _ m₁ hrun hd).2 v rfl

end Eval

/-! ## Invocations -/

namespace Exec

variable {s : Shader} {plan : DispatchPlan} {index : Nat} {m m₁ : Machine} {scope : ScopeId}

theorem calm_argument (scope : ScopeId) (depth : Nat) (attributes : List Attribute)
    (type : TypeExpr) : Calm (Eval.argument s scope depth attributes type).run := by
  induction depth generalizing attributes type with
  | zero =>
    rw [Eval.argument]
    exact calm_pure _
  | succ depth ih =>
    rw [Eval.argument]
    refine Eval.calm_bind (Eval.calm_typeInfo type) fun t => ?_
    split
    · refine Eval.calm_bind (Eval.calm_get fun m => ?_) fun v => Eval.calm_lift _
      split
      · exact Eval.calm_pure _
      · exact Eval.calm_throw _
    · split
      · refine Eval.calm_bind (Eval.calm_mapM (fun field => ?_) _) fun fields => Eval.calm_pure _
        exact Eval.calm_bind (ih _ _) fun v => Eval.calm_pure _
      · exact Eval.calm_pure _

theorem calm_bindArgument (entry : Function) (scope : ScopeId) (arg : Field) :
    (bindArgument s entry scope arg).Calm := by
  refine calm_bind (calm_argument scope _ arg.attributes arg.type) fun outcome => ?_
  cases outcome with
  | ok v => exact calm_bindName _ _ _
  | error e => exact calm_bind (calm_modifyGet fun _ => rfl) fun _ => calm_bindName _ _ _

/-- An invocation begins with nothing discarded. -/
theorem discarded_beginInvocation (h : beginInvocation s plan index m = .ok (scope, m₁)) :
    m₁.discarded = false := by
  obtain ⟨_, m₂, -, h⟩ := bind_ok h
  obtain ⟨_, m₃, h₃, h⟩ := bind_ok h
  have begun : m₃.discarded = false := by
    cases h₃
    rfl
  have calm : Calm (do
      let scope ← pushScope ScopeArena.root
      ((plan.invocation index).builtins plan.workgroups).forM fun b =>
        bind scope b.1 (.value b.2)
      plan.entry.args.forM (bindArgument s plan.entry scope)
      return scope) := by
    refine calm_bind (calm_modifyGet fun _ => rfl) fun scope => ?_
    refine calm_bind (calm_forM (fun _ => calm_bindName _ _ _) _) fun _ => ?_
    exact calm_bind (calm_forM (calm_bindArgument _ scope) _) fun _ => calm_pure _
  exact calm m₃ scope m₁ begun h

/-- In an orderly shader no statement is run after a discard: each invocation runs as it does when
it has to halt at its first discard, at whatever depth of calls and in whatever operand that is. -/
theorem nothing_after_discard (h : s.Orderly) {name : String}
    (hentry : s.function? name = some plan.entry)
    (hbegin : beginInvocation s plan index m = .ok (scope, m₁)) (stop : Fault) :
    Halting.stmts s (Halting.call s stop) stop scope plan.entry.body m₁ =
      (Eval.stmts s (Eval.call s) scope plan.entry.body m₁).map (noted Flow.isDiscard) := by
  obtain ⟨answers, muted⟩ := Eval.ordered_callWithin h stop maxCallDepth
  exact (Eval.halts_body h stop answers muted hentry scope).follows m₁
    (discarded_beginInvocation hbegin)

end Exec

/-! ## Two calls in one statement -/

/-- A shader in which `kill` discards and `bump` counts `n` up. -/
def Shader.killing (body : List Stmt) : Shader :=
  let kill : Function := ⟨"kill", [], none, [], [], [.discard 1], 1, 1⟩
  let count : SimpleStmt := ⟨2, .increment .increment (.var ⟨0, 2⟩ "n")⟩
  let bump : Function := ⟨"bump", [], none, [], [], [.simple count], 2, 2⟩
  let main : Function := ⟨"main", [], none, [], [], body, 3, 5⟩
  ⟨⟨[.function kill, .function bump, .function main]⟩, ⟨[], [], [], [], [], [], [], [], [], []⟩,
    [("kill", kill), ("bump", bump), ("main", main)]⟩

/-- The only invocation of the entry point of that body. -/
def DispatchPlan.killing (body : List Stmt) : DispatchPlan :=
  ⟨⟨"main", [], none, [], [], body, 3, 5⟩, ⟨1, 1, 1⟩, ⟨1, 1, 1⟩⟩

/-- A machine in which `n` is zero. -/
def Machine.counting : Machine :=
  ({ layouts := .ofProgram ⟨[]⟩ } : Machine).bind ScopeArena.root "n" (.value (.i32 0))

/-- The statement `_ = f() + g();`. -/
def Stmt.sumOf (f g : String) : Stmt :=
  .simple ⟨4, .assign .plain none (.binary ⟨1, 4⟩ .add (.call ⟨2, 4⟩ f []) (.call ⟨3, 4⟩ g []))⟩

namespace Exec

open Eval (stmts call)

/-- How a run of that body ends, and what it leaves in `n`. -/
def counted (body : List Stmt) (run : Shader → ScopeId → List Stmt → Exec Flow) :
    Except Fault (Flow × Run Value) := do
  let (scope, m) ← beginInvocation (.killing body) (.killing body) 0 Machine.counting
  let (flow, m₁) ← run (.killing body) scope body m
  return (flow, m₁.nameValue scope "n")

/-- In `_ = bump() + kill(); _ = bump() + bump();` the discard leaves `n` at one. -/
theorem nothing_after_discard_kill :
    let body := [Stmt.sumOf "bump" "kill", Stmt.sumOf "bump" "bump"]
    counted body (fun s => stmts s (call s)) = .ok (.discard, .ok (.i32 1)) ∧
      let s := Shader.killing body
      ∃ m scope, beginInvocation s (.killing body) 0 Machine.counting = .ok (scope, m) ∧
        ∀ stop, Halting.stmts s (Halting.call s stop) stop scope body m =
          (stmts s (call s) scope body m).map (noted Flow.isDiscard) := by
  intro body
  have ran : counted body (fun s => stmts s (call s)) = .ok (.discard, .ok (.i32 1)) := by cbv
  have counts : ¬(Shader.killing body).MayDiscard "bump" := by
    intro h
    cases h with
    | own hf hk =>
      cases hf
      exact hk ⟨trivial, trivial⟩
    | through hf hc _ =>
      cases hf
      simp [Stmt.listMentions, Stmt.mentions, SimpleStmt.mentions, Expr.mentions] at hc
  have orderly : (Shader.killing body).Orderly := by
    intro name f hf
    have declared := Table.mem_of_find? hf
    simp only [Shader.killing, List.mem_cons, List.not_mem_nil, or_false, Prod.mk.injEq] at declared
    obtain ⟨-, rfl⟩ | ⟨-, rfl⟩ | ⟨-, rfl⟩ := declared
    · exact ⟨trivial, trivial⟩
    · exact ⟨fun _ h => absurd h List.not_mem_nil, trivial⟩
    · have first : ∀ g, ∀ n ∈ ["bump", g].dropLast, ¬(Shader.killing body).MayDiscard n := by
        intro g n hn
        rw [List.mem_singleton.1 hn]
        exact counts
      exact ⟨first "kill", first "bump", trivial⟩
  refine ⟨ran, ?_⟩
  cases hbegin : beginInvocation (.killing body) (.killing body) 0 Machine.counting with
  | error fault =>
    unfold counted at ran
    rw [hbegin] at ran
    cases ran
  | ok r =>
    have main : (Shader.killing body).function? "main" =
        some (DispatchPlan.killing body).entry := rfl
    exact ⟨r.2, r.1, hbegin, nothing_after_discard orderly main hbegin⟩

/-- The body `for (kill(); ; ) { bump(); break; }`. -/
def killInHeader : List Stmt :=
  [.forLoop 4 (some ⟨4, .call (.call ⟨1, 4⟩ "kill" [])⟩) none none
    [.simple ⟨5, .call (.call ⟨2, 5⟩ "bump" [])⟩, .break_ 5]]

/-- In `_ = kill() + bump();` and behind `kill()` in the header of a `for`, `bump` still runs. -/
theorem bump_after_discard :
    (counted [Stmt.sumOf "kill" "bump"] (fun s => stmts s (call s)) = .ok (.discard, .ok (.i32 1)) ∧
      ∀ stop, counted [Stmt.sumOf "kill" "bump"]
        (fun s => Halting.stmts s (Halting.call s stop) stop) = .error stop) ∧
    counted killInHeader (fun s => stmts s (call s)) = .ok (.discard, .ok (.i32 1)) ∧
      ∀ stop, counted killInHeader
        (fun s => Halting.stmts s (Halting.call s stop) stop) = .error stop := by
  refine ⟨⟨?operand, fun stop => ?operandHalts⟩, ?header, fun stop => ?headerHalts⟩
  case operand => cbv
  case operandHalts => cbv
  case header => cbv
  case headerHalts => cbv

end Exec

end Wgsl
