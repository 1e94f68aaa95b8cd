import Wgsl.Proofs.Machine.Holdings
import Wgsl.Proofs.Stepper.Invocations

/-! # A dispatch run and stepped over

Stepping over the commands of a dispatch does what running it does. Between two invocations the machine
of the run and that of the session are the same.

* `Session.Finishes`, `Session.Stalls`: steps that step over calls, until no command is left or one of
  them gives up.
* `Session.advances_invocation`: one invocation.
* `Session.advances_invocations`: by induction, all that are left.
* `Session.stepped_dispatch`: the dispatch.
-/

namespace Wgsl
set_option autoImplicit false

namespace Session

/-! ## Steps until the end -/

/-- Calls are stepped over until no command is left. -/
inductive Finishes (s : Shader) : Session → Session → Prop
  | done {t t' : Session} : Step.next s false t = .ok (.ok false, t') → Finishes s t t'
  | next {t t₁ t' : Session} : Step.next s false t = .ok (.ok true, t₁) → Finishes s t₁ t' →
      Finishes s t t'

/-- Stepping over calls comes to a step that gives up before it has reached a visible command. -/
inductive Stalls (s : Shader) : Session → Prop
  | here {t t' : Session} :
      Step.next s false t = .ok (.error (.dispatch (.noStatementReached maxSilentCommands)), t') →
      Stalls s t
  | next {t t₁ : Session} : Step.next s false t = .ok (.ok true, t₁) → Stalls s t₁ → Stalls s t

variable {s : Shader} {t t₁ t' : Session}

/-- What a step comes to if stepping on ends in the last session. -/
inductive Reaches (s : Shader) (last : Session) : Except Fault (Except Fault Bool × Session) → Prop
  | exhausted {t : Session} :
      Reaches s last (.ok (.error (.dispatch (.noStatementReached maxSilentCommands)), t))
  | done : Reaches s last (.ok (.ok false, last))
  | ran {t : Session} : t.Stalls s ∨ t.Finishes s last → Reaches s last (.ok (.ok true, t))

theorem Reaches.ends (h : Reaches s t' (Step.next s false t)) : t.Stalls s ∨ t.Finishes s t' := by
  generalize he : Step.next s false t = outcome at h
  cases h with
  | exhausted => exact Or.inl (.here he)
  | done => exact Or.inr (.done he)
  | ran ends => exact ends.imp (.next he) (.next he)

/-- A session with no frames and no invocation left is the last. -/
theorem reaches_of_last (hf : t.frames = []) (hdone : Step.startInvocation s t = .ok (false, t))
    (n : Nat) : Reaches s t (Step.within s false n t) := by
  cases n with
  | zero => exact .exhausted
  | succ n =>
    have stops : Step.within s false (n + 1) t = .ok (.ok false, t) := by
      rw [Step.within]
      refine (Step.get_bind _ _).trans ?_
      rw [hf]
      exact Step.bind_eq hdone
    exact stops ▸ .done

/-- If what is passed over and run leads to the last session, stepping ends there. -/
theorem finishes_of_advances (h : Relation.ReflTransGen (Advances s) t t') (hf : t'.frames = [])
    (hdone : Step.startInvocation s t' = .ok (false, t')) : t.Stalls s ∨ t.Finishes s t' := by
  suffices reaches : ∀ n, Reaches s t' (Step.within s false n t) from (reaches _).ends
  induction h using Relation.ReflTransGen.head_induction_on with
  | refl => exact reaches_of_last hf hdone
  | @head t t₁ hstep _ ih =>
    intro n
    cases n with
    | zero => exact .exhausted
    | succ n =>
      obtain passed | ran := hstep.within n
      · exact passed ▸ ih n
      · exact ran ▸ .ran (ih maxSilentCommands).ends

/-! ## Invocations -/

/-- The session between two invocations. -/
def between (t : Session) (m : Machine) (next : Nat) : Session :=
  { t with machine := m, nextInvocation := next, invocationScope := none, frames := [] }

/-- Nothing but an invocation can begin where there are no frames. -/
theorem Advances.start (h : Advances s t t') (hf : t.frames = []) :
    Step.startInvocation s t = .ok (true, t') := by
  cases h with
  | passes h =>
    cases h with
    | start _ hstart => exact hstart
    | finish hf' => cases hf.symm.trans hf'
    | jump hf' => cases hf.symm.trans hf'
    | block hf' => cases hf.symm.trans hf'
    | loop hf' => cases hf.symm.trans hf'
  | runs hf' => cases hf.symm.trans hf'

theorem startInvocation_begins {plan : DispatchPlan} {scope : ScopeId} {m : Machine}
    (hplan : t.plan = some plan) (left : t.nextInvocation < plan.invocationCount)
    (hbegin : Exec.beginInvocation s plan t.nextInvocation t.machine = .ok (scope, m)) :
    Step.startInvocation s t = .ok (true, { t with
      machine := m
      nextInvocation := t.nextInvocation + 1
      invocationScope := some scope
      frames := Step.entryFrame plan scope :: t.frames }) := by
  obtain ⟨machine, frames, plan', next, scope', groups, config⟩ := t
  obtain rfl : plan' = some plan := hplan
  unfold Step.startInvocation
  refine (Step.get_bind _ _).trans ?_
  dsimp only
  rw [if_neg (Nat.not_le.2 left)]
  exact Step.bind_eq (Step.onMachine_eq hbegin)

theorem startInvocation_none {plan : DispatchPlan} (hplan : t.plan = some plan)
    (none : plan.invocationCount ≤ t.nextInvocation) :
    Step.startInvocation s t = .ok (false, t) := by
  unfold Step.startInvocation
  rw [Step.get_bind, hplan]
  dsimp only
  rw [if_pos none]
  rfl

section

variable {p : Program} {l : Layouts} {plan : DispatchPlan} {name : String} {m m₁ : Machine} {i : Nat}
  (hp : Shader.ofProgram p = .ok (s, l)) (hfree : AddressFree p.nodes)
  (hcalled : ∀ name f, p.Called name → s.function? name = some f → f.Everywhere Stmt.Keeping p)
  (hplan : t.plan = some plan) (hf : s.function? name = some plan.entry)
  (hreturn : plan.entry.returnType = none) (hsteps : plan.entry.Everywhere Stmt.Steppable p)

include hp hfree hf

/-- After a silent invocation the machine rests again, and it has begun in silence. -/
theorem resting_runInvocation (hm : m.Resting p)
    (hrun : Exec.runInvocation s plan i m = .ok ((), m₁)) :
    m₁.Resting p ∧ (m₁.diagnostics = #[] → m.diagnostics = #[]) := by
  have opened : 0 < m.scopes.depth := hm.depth ▸ Nat.one_pos
  have kept := Conduct.inside_runInvocation (Conduct.stack_admitsShader s) hf i m () m₁ opened hrun
  obtain ⟨scope, n, hbegin, hrun⟩ := Exec.bind_ok hrun
  obtain ⟨flow, n₁, hbody, hrun⟩ := Exec.bind_ok hrun
  cases hrun
  obtain ⟨rfl, entered⟩ := Exec.entered_beginInvocation hp hfree hm hbegin
  have body := Exec.plain_stmts hp hfree hf entered.plain Nat.one_ne_zero hbody
  have popped := body.pop 1
  refine ⟨⟨{ popped with callResults := rfl }, kept.depth.trans hm.depth,
    (kept.parents _).trans hm.parent⟩, fun silent => ?_⟩
  have free : AddressFree (Stmt.listNodes plan.entry.body) :=
    (Function.addressFree hp hfree hf).mono (List.subset_append_right _ _)
  refine Exec.silent_beginInvocation hp hfree hm.plain hbegin ?_
  by_contra hne
  exact Eval.spoils_stmts (p.answers_solo hp hfree) 1 (free.admitted fun _ => trivial) n flow n₁ hbody
    hne silent

include hcalled hplan hreturn hsteps

/-- The commands of one invocation. -/
theorem advances_invocation (hm : m.Resting p) (left : i < plan.invocationCount)
    (hrun : Exec.runInvocation s plan i m = .ok ((), m₁)) (silent : m₁.diagnostics = #[]) :
    Relation.ReflTransGen (Advances s) (t.between m i) (t.between m₁ (i + 1)) := by
  obtain ⟨scope, n, hbegin, hrun⟩ := Exec.bind_ok hrun
  obtain ⟨flow, n₁, hbody, hrun⟩ := Exec.bind_ok hrun
  cases hrun
  obtain ⟨rfl, entered⟩ := Exec.entered_beginInvocation hp hfree hm hbegin
  let q : Spot := {
    session := { t with machine := n, nextInvocation := i + 1, invocationScope := some 1, frames := [] }
    frame := Step.entryFrame plan 1
    below := [] }
  have starts : Advances s (t.between m i) (q.standing n 0 plan.entry.startLine) :=
    .passes (.start rfl (startInvocation_begins (t := t.between m i) hplan left hbegin))
  obtain ⟨m', j, line', same, lands, hj, ends⟩ := Spot.ends_body hp hfree hcalled (q := q) hf hsteps rfl
    rfl entered hbody silent plan.entry.startLine
  have ended : (q.standing m' j line').endInvocation =
      t.between { n₁.popped 1 with callResults := [] } (i + 1) := by
    refine (endInvocation_some rfl).trans ?_
    change t.between { m'.popped 1 with scopes := (m'.scopes.pop 1).pop 1, callResults := [] } (i + 1) = _
    rw [ScopeArena.pop_self, ← same]
    rfl
  have returns : ∀ value, Step.finishCall value (q.standing m' j line') =
      .ok ((), t.between { n₁.popped 1 with callResults := [] } (i + 1)) := fun value =>
    ended ▸ Step.finishCall_invoked hreturn rfl (.entry (f := q.frame.placed j line') rfl rfl rfl) value
  have inside : ∀ {t₁ t₂ : Session}, Leads q s t₁ t₂ → Relation.ReflTransGen (Advances s) t₁ t₂ :=
    fun h => h.lift id fun _ _ h => h.2
  refine .head starts ?_
  cases flow with
  | normal =>
    have past : (q.frame.placed j line').next? = none :=
      List.getElem?_eq_none (hj rfl).ge
    exact (inside ends).tail (.passes (.finish rfl past (returns none)))
  | return_ value => exact inside (ends.leads (returns value))
  | discard => exact ended ▸ inside ends
  | break_ => exact lands.elim
  | continue_ => exact lands.elim

/-- The commands of all invocations that are left. -/
theorem advances_invocations (count : Nat) (hm : m.Resting p)
    (left : i + count = plan.invocationCount)
    (hrun : Exec.runInvocations s plan count i m = .ok ((), m₁)) (silent : m₁.diagnostics = #[]) :
    m.diagnostics = #[] ∧
      Relation.ReflTransGen (Advances s) (t.between m i) (t.between m₁ plan.invocationCount) := by
  induction count generalizing m i with
  | zero =>
    cases hrun
    obtain rfl : i = plan.invocationCount := left
    exact ⟨silent, .refl⟩
  | succ count ih =>
    obtain ⟨⟨⟩, n, hfirst, hrest⟩ := Exec.bind_ok hrun
    obtain ⟨rests, begun⟩ := resting_runInvocation hp hfree hf hm hfirst
    have further : i + 1 + count = plan.invocationCount := by omega
    obtain ⟨quiet, others⟩ := ih rests further hrest
    have here : i < plan.invocationCount := by omega
    exact ⟨begun quiet, (advances_invocation hp hfree hcalled hplan hf hreturn hsteps hm here hfirst
      quiet).trans others⟩

end

end Session

/-! ## Dispatches -/

/-- A dispatch that succeeds has been prepared, has run its invocations and has handed the resources
back. -/
theorem Attempt.dispatch_ok {s : Shader} {entry : String} {workgroups : Extent} {g g₁ : BindGroups}
    {config : Config} {m m₁ : Machine}
    (h : (dispatch s entry workgroups g config).run m = .ok (.ok g₁, m₁)) : ∃ plan rest n n₁,
      (prepare s entry workgroups g config).run m = .ok (.ok (plan, rest), n) ∧
      Exec.runInvocations s plan plan.invocationCount 0 n = .ok ((), n₁) ∧
      Exec.finish rest n₁ = .ok (g₁, m₁) := by
  obtain ⟨⟨plan, rest⟩, n, hprepare, h⟩ := Bridge.attempt_bind_ok h
  have run : (Exec.runInvocations s plan plan.invocationCount 0 >>= fun _ => Exec.finish rest) n =
      .ok (g₁, m₁) := by
    change ((Exec.runInvocations s plan plan.invocationCount 0 >>= fun _ => Exec.finish rest) n >>=
      fun r => Except.ok (Except.ok r.1, r.2)) = _ at h
    cases hr : (Exec.runInvocations s plan plan.invocationCount 0 >>= fun _ => Exec.finish rest) n with
    | error e =>
      rw [hr] at h
      cases h
    | ok r =>
      rw [hr] at h
      cases h
      rfl
  obtain ⟨⟨⟩, n₁, hruns, hfinish⟩ := Exec.bind_ok run
  exact ⟨plan, rest, n, n₁, hprepare, hruns, hfinish⟩

namespace Session

/-- A dispatch that has been prepared, in a new session. -/
def prepared (m : Machine) (plan : DispatchPlan) (rest : BindGroups) (config : Config) : Session where
  machine := m
  plan := some plan
  groups := rest
  config := config

section

variable {s : Shader} {entry : String} {workgroups : Extent} {g rest : BindGroups} {config : Config}
  {plan : DispatchPlan} {m n : Machine} {t : Session}

/-- A session begins with the first invocation, if there is one. -/
theorem beginDispatch_ok {b : Bool}
    (hprepare : (Attempt.prepare s entry workgroups g config).run m = .ok (.ok (plan, rest), n))
    (hstart : Step.startInvocation s (prepared n plan rest config) = .ok (b, t)) :
    Step.beginDispatch s entry workgroups g config { machine := m } = .ok (.ok (), t) := by
  unfold Step.beginDispatch
  refine (Step.modify_bind _ _ _).trans ?_
  refine (Step.bind_eq (Step.onMachine_eq hprepare)).trans ?_
  refine (Step.modify_bind _ _ _).trans ?_
  exact Step.bind_eq hstart

/-- A session whose invocations have all ended hands the resources back. -/
theorem finish_ok {m₁ : Machine} {g₁ : BindGroups} (hf : t.frames = []) (hs : t.invocationScope = none)
    (hfinish : Exec.finish t.groups t.machine = .ok (g₁, m₁)) :
    Step.finish t = .ok (g₁, { t with machine := m₁ }) := by
  have ended : t.endInvocation = t := by
    obtain ⟨machine, frames, plan, next, scope, groups, config⟩ := t
    obtain rfl : frames = [] := hf
    obtain rfl : scope = none := hs
    rfl
  unfold Step.finish
  refine (Step.modify_bind _ _ _).trans ?_
  rw [ended]
  exact (Step.get_bind _ _).trans (Step.onMachine_eq hfinish)

end

/-- Take a program without address-of expressions in which no function that is called discards, and an
entry point that returns nothing. Every `break` and `continue` in it lands, no loop in it declares a
name that is declared around it, and no `continuing` part in it has an `if` among its statements.

If a dispatch of the entry point succeeds and reports no error, a new session on the same machine
begins, and stepping over calls gets to its end, unless a step gives up. It reports no error, and the
session hands back the resources that the dispatch hands back and leaves the same machine. -/
theorem stepped_dispatch {p : Program} {s : Shader} {l : Layouts} {entry : String}
    {workgroups : Extent} {g g₁ : BindGroups} {config : Config} {m m₁ : Machine}
    (hp : Shader.ofProgram p = .ok (s, l)) (hfree : AddressFree p.nodes)
    (hcalled : ∀ name f, p.Called name → s.function? name = some f → f.Everywhere Stmt.Keeping p)
    (hentry : ∀ f, s.function? entry = some f →
      f.returnType = none ∧ f.Everywhere Stmt.Steppable p)
    (hrun : (Attempt.dispatch s entry workgroups g config).run m = .ok (.ok g₁, m₁))
    (silent : m₁.diagnostics = #[]) :
    ∃ t, Step.beginDispatch s entry workgroups g config { machine := m } = .ok (.ok (), t) ∧
      (t.Stalls s ∨ ∃ last, t.Finishes s last ∧ last.machine.diagnostics = #[] ∧
        Step.finish last = .ok (g₁, { last with machine := m₁ })) := by
  obtain ⟨plan, rest, n, n₁, hprepare, hruns, hfinish⟩ := Attempt.dispatch_ok hrun
  obtain ⟨-, found⟩ := Attempt.plain_prepare hp hfree hprepare
  obtain ⟨returns, steps⟩ := hentry plan.entry found
  have rests := Attempt.resting_prepare hp hfree hprepare
  have quiet : n₁.diagnostics = #[] := by
    cases hfinish
    exact silent
  let start := prepared n plan rest config
  let last := start.between n₁ plan.invocationCount
  have spent : Step.startInvocation s last = .ok (false, last) := startInvocation_none rfl (Nat.le_refl _)
  have ended : Step.finish last = .ok (g₁, { last with machine := m₁ }) := finish_ok rfl rfl hfinish
  have runs : Relation.ReflTransGen (Advances s) start last :=
    (advances_invocations hp hfree hcalled (t := start) rfl found returns steps _ rests (Nat.zero_add _)
      hruns quiet).2
  obtain same | ⟨t, first, others⟩ := Relation.ReflTransGen.cases_head runs
  · -- there is no invocation
    refine ⟨last, beginDispatch_ok hprepare ((congrArg _ same).trans spent), ?_⟩
    exact (finishes_of_advances .refl rfl spent).imp id fun ends => ⟨last, ends, quiet, ended⟩
  · refine ⟨t, beginDispatch_ok hprepare (first.start rfl), ?_⟩
    exact (finishes_of_advances others rfl spent).imp id fun ends => ⟨last, ends, quiet, ended⟩

end Session

/-! ## A counter and its two invocations -/

/-- `fn tick() { a++; }`. -/
def Function.tick : Function :=
  ⟨"tick", [], none, [], [], [.simple ⟨0, .increment .increment (.var ⟨0, 0⟩ "a")⟩], 0, 0⟩

/-- `@compute @workgroup_size(2) fn main() { loop { tick(); continuing { break if a >= 2u; } } }`. -/
def Function.ticks : Function where
  name := "main"
  args := []
  returnType := none
  returnAttributes := []
  attributes := [.mk "compute" [] 0, .mk "workgroup_size" [.literal ⟨0, 0⟩ (.int 2 none)] 0]
  body := [.loop 0 [.simple ⟨0, .call (.call ⟨1, 0⟩ "tick" [])⟩] (some [.breakIf 0
    (.binary ⟨2, 0⟩ .greaterEqual (.var ⟨3, 0⟩ "a") (.literal ⟨4, 0⟩ (.int 2 (some 'u'))))])]
  startLine := 0
  endLine := 0

def Program.ticking : Program := ⟨[counter "a" 0, .function .tick, .function .ticks]⟩

/-- A host with a number for the counter. -/
def tickingHost (a : UInt8) : BindGroups := ⟨[(⟨0, 0⟩, .storage #[a, 0, 0, 0])]⟩

/-- The resources after a dispatch of one workgroup, and how many errors it has reported. -/
def Attempt.handedBack (p : Program) (g : BindGroups) : Except Fault (Except Fault BindGroups × Nat) := do
  let (s, l) ← Shader.ofProgram p
  let (outcome, m) ← (dispatch s "main" ⟨1, 1, 1⟩ g []).run { layouts := l }
  return (outcome, m.diagnostics.size)

theorem Attempt.of_handedBack {p : Program} {g : BindGroups} {outcome : Except Fault BindGroups} {n : Nat}
    (h : handedBack p g = .ok (outcome, n)) : ∃ s l m, Shader.ofProgram p = .ok (s, l) ∧
      (dispatch s "main" ⟨1, 1, 1⟩ g []).run { layouts := l } = .ok (outcome, m) ∧
      m.diagnostics.size = n := by
  unfold handedBack at h
  cases hp : Shader.ofProgram p with
  | error e =>
    rw [hp] at h
    cases h
  | ok found =>
    obtain ⟨s, l⟩ := found
    rw [hp] at h
    change ((dispatch s "main" ⟨1, 1, 1⟩ g []).run { layouts := l } >>= fun r =>
      Except.ok (r.1, r.2.diagnostics.size)) = _ at h
    cases hr : (dispatch s "main" ⟨1, 1, 1⟩ g []).run { layouts := l } with
    | error e =>
      rw [hr] at h
      cases h
    | ok r =>
      rw [hr] at h
      cases h
      exact ⟨s, l, r.2, rfl, hr, rfl⟩

/-- Whether an address is taken there. -/
def Node.takesAddress : Node → Bool
  | .expr (.unary _ .addressOf _) => true
  | _ => false

theorem Program.addressFree_ticking : AddressFree ticking.nodes := by
  have none : ∀ n ∈ ticking.nodes, n.takesAddress = false := by decide +kernel
  intro k e hn
  cases none _ hn

namespace Session

/-- Whether stepping over calls gets to the end in fewer steps than given. -/
def completes (s : Shader) : Nat → Session → Bool
  | 0, _ => false
  | n + 1, t =>
    match Step.next s false t with
    | .ok (.ok true, t') => completes s n t'
    | .ok (.ok false, _) => true
    | _ => false

/-- By induction on the steps to the one that gives up. -/
theorem Stalls.not_completes {s : Shader} {t : Session} (h : t.Stalls s) (n : Nat) :
    completes s n t = false := by
  induction h generalizing n with
  | here h => cases n with
    | zero => rfl
    | succ n => rw [completes, h]
  | next h _ ih => cases n with
    | zero => rfl
    | succ n =>
      rw [completes, h]
      exact ih n

/-- Whether a new session of a program gets to its end. -/
def steppedOver (p : Program) (g : BindGroups) (n : Nat) : Except Fault Bool := do
  let (s, l) ← Shader.ofProgram p
  let (_, t) ← Step.beginDispatch s "main" ⟨1, 1, 1⟩ g [] { machine := { layouts := l } }
  return completes s n t

theorem completes_of_steppedOver {p : Program} {g : BindGroups} {n : Nat} {s : Shader} {l : Layouts}
    {t : Session} (h : steppedOver p g n = .ok true) (hp : Shader.ofProgram p = .ok (s, l))
    (begun : Step.beginDispatch s "main" ⟨1, 1, 1⟩ g [] { machine := { layouts := l } } = .ok (.ok (), t)) :
    completes s n t = true := by
  obtain ⟨_, hp', h⟩ := Fault.bind_ok h
  obtain rfl := Except.ok.inj (hp.symm.trans hp')
  obtain ⟨_, begun', h⟩ := Fault.bind_ok h
  obtain rfl := Except.ok.inj (begun.symm.trans begun')
  exact Except.ok.inj h

end Session

/-- Two invocations, of which the first runs two rounds and the second one, are stepped over, and no
step gives up. -/
theorem Session.stepped_dispatch_ticking : ∃ s l m₁ t last, Shader.ofProgram .ticking = .ok (s, l) ∧
    (Attempt.dispatch s "main" ⟨1, 1, 1⟩ (tickingHost 0) []).run { layouts := l } =
      .ok (.ok (tickingHost 3), m₁) ∧ m₁.diagnostics = #[] ∧
    Step.beginDispatch s "main" ⟨1, 1, 1⟩ (tickingHost 0) [] { machine := { layouts := l } } =
      .ok (.ok (), t) ∧
    t.Finishes s last ∧ last.machine.diagnostics = #[] ∧
      Step.finish last = .ok (tickingHost 3, { last with machine := m₁ }) := by
  have counted : Attempt.handedBack .ticking (tickingHost 0) = .ok (.ok (tickingHost 3), 0) := by cbv
  obtain ⟨s, l, m₁, hp, hrun, size⟩ := Attempt.of_handedBack counted
  have silent : m₁.diagnostics = #[] := Array.size_eq_zero_iff.1 size
  have functions : Program.ticking.functions = [.tick, .ticks] := rfl
  have keeping : ∀ f ∈ Program.ticking.functions, f.Everywhere Stmt.Keeping .ticking := by
    intro f hf
    rw [functions, List.mem_cons, List.mem_singleton] at hf
    obtain rfl | rfl := hf
    · exact ⟨trivial, trivial⟩
    · exact ⟨⟨trivial, ⟨trivial, trivial⟩, trivial, trivial⟩, trivial⟩
  have called : ∀ name f, Program.ticking.Called name → s.function? name = some f →
      f.Everywhere Stmt.Keeping .ticking := fun _ f _ hf =>
    keeping f (Shader.mem_of_function? hp hf).1
  have entry : ∀ f, s.function? "main" = some f →
      f.returnType = none ∧ f.Everywhere Stmt.Steppable .ticking := by
    intro f hf
    obtain ⟨listed, named⟩ := Shader.mem_of_function? hp hf
    rw [functions, List.mem_cons, List.mem_singleton] at listed
    obtain rfl | rfl := listed
    · exact absurd named (by decide)
    · have round : Stmt.Straight ⟨fun _ => True, True, True⟩ (.loop 0 [] (some [.breakIf 0
          (.binary ⟨2, 0⟩ .greaterEqual (.var ⟨3, 0⟩ "a") (.literal ⟨4, 0⟩ (.int 2 (some 'u'))))])) := by
        intro st hst
        rw [List.mem_singleton.1 hst]
        exact id
      exact ⟨rfl, ⟨⟨trivial, fun _ h => absurd h List.not_mem_nil, round⟩, ⟨⟨trivial, trivial, trivial⟩, trivial⟩,
        ⟨trivial, trivial, trivial⟩, trivial⟩, trivial⟩
  obtain ⟨t, begun, stalls | ⟨last, ends⟩⟩ :=
    stepped_dispatch hp Program.addressFree_ticking called entry hrun silent
  · have ten : steppedOver .ticking (tickingHost 0) 10 = .ok true := by cbv
    have through := completes_of_steppedOver ten hp begun
    rw [stalls.not_completes] at through
    cases through
  · exact ⟨s, l, m₁, t, last, hp, hrun, silent, begun, ends⟩

end Wgsl
