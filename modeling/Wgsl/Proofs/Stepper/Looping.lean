import Wgsl.Proofs.Stepper.Structured

/-! # Commands of loops

The frame of a loop stays open over all its rounds. What a round of the run leaves behind is either
nothing, or names that nothing outside the loop is called by; the next round finds them in the session
before it declares them.

* `yields_rounds`: by induction over the rounds of a loop.
* `drives_while`, `drives_for`, `drives_loop`: the three loops.
-/

namespace Wgsl
set_option autoImplicit false

open Eval (condition goesOn rounds repeated afterBody inBlock stmts header continuingPart settled)
open Overlay (Knows)

/-! ## Rounds -/

namespace Eval

variable (s : Shader) (call : Caller) (scope : ScopeId)

/-- A round of a `while`. -/
def whileRound (e : Expr) (body : List Stmt) : Eval (Option Flow) := do
  if ← condition s call scope e then
    return afterBody (← inBlock scope fun scope => stmts s call scope body)
  else return some .normal

/-- What follows the body of a `for`. -/
def forNext (update : Option SimpleStmt) (flow : Flow) : Eval (Option Flow) :=
  match afterBody flow with
  | some ending => return some ending
  | none => do
    ofExec (header s call scope update)
    return none

/-- A round of a `for`. -/
def forRound (cond : Option Expr) (update : Option SimpleStmt) (body : List Stmt) :
    Eval (Option Flow) := do
  if ← goesOn s call scope cond then
    forNext s call scope update (← inBlock scope fun scope => stmts s call scope body)
  else return some .normal

/-- What follows the body of a `loop`: its `continuing` part, if the loop goes on. -/
def loopNext (continuing : Option (List Stmt)) : Flow → Exec Flow
  | .normal => continuingPart s call scope continuing
  | .continue_ => continuingPart s call scope continuing
  | flow => return flow

/-- The body of a `loop` and its `continuing` part, in one scope. -/
def loopBody (body : List Stmt) (continuing : Option (List Stmt)) : Exec Flow := do
  loopNext s call scope continuing (← stmts s call scope body)

/-- A round of a `loop`. -/
def loopRound (body : List Stmt) (continuing : Option (List Stmt)) : Eval (Option Flow) :=
  ofExec do
    let flow ← Exec.inScope scope fun scope => loopBody s call scope body continuing
    return afterBody flow

theorem stmt_while (line : Nat) (e : Expr) (body : List Stmt) :
    stmt s call scope (.whileLoop line e body) =
      settled line (repeated (whileRound s call scope e body)) := by
  rw [stmt]
  rfl

theorem stmt_for (line : Nat) (init : Option SimpleStmt) (cond : Option Expr)
    (update : Option SimpleStmt) (body : List Stmt) :
    stmt s call scope (.forLoop line init cond update body) =
      settled line (inScope scope fun scope => ofExec (header s call scope init) >>= fun _ =>
        repeated (forRound s call scope cond update body)) := by
  rw [stmt]
  rfl

theorem stmt_loop (line : Nat) (body : List Stmt) (continuing : Option (List Stmt)) :
    stmt s call scope (.loop line body continuing) =
      settled line (repeated (loopRound s call scope body continuing)) := by
  rw [stmt]
  refine congrArg (fun body => settled line (repeated (ofExec (Exec.inScope scope body >>=
    fun flow => pure (afterBody flow))))) (funext fun scope => bind_congr fun flow => ?_)
  cases flow <;> rfl

theorem spoils_forNext {update : Option SimpleStmt} (h : (header s call scope update).Spoils)
    (flow : Flow) : Exec.Spoils (forNext s call scope update flow).run := by
  unfold forNext
  cases afterBody flow with
  | some ending => exact spoils_pure _
  | none => exact spoils_bind (spoils_ofExec h) fun _ => spoils_pure _

theorem spoils_loopNext {continuing : Option (List Stmt)}
    (h : (continuingPart s call scope continuing).Spoils) (flow : Flow) :
    (loopNext s call scope continuing flow).Spoils := by
  cases flow with
  | normal => exact h
  | continue_ => exact h
  | break_ => exact Exec.spoils_pure _
  | return_ v => exact Exec.spoils_pure _
  | discard => exact Exec.spoils_pure _

theorem spoils_whileRound {e : Expr} {body : List Stmt}
    (hc : Exec.Spoils (condition s call scope e).run)
    (hb : Exec.Spoils (inBlock scope fun scope => stmts s call scope body).run) :
    Exec.Spoils (whileRound s call scope e body).run := by
  refine spoils_bind hc fun b => ?_
  cases b with
  | false => exact spoils_pure _
  | true => exact spoils_bind hb fun flow => spoils_pure _

theorem spoils_forRound {cond : Option Expr} {update : Option SimpleStmt} {body : List Stmt}
    (hc : Exec.Spoils (goesOn s call scope cond).run)
    (hb : Exec.Spoils (inBlock scope fun scope => stmts s call scope body).run)
    (hu : (header s call scope update).Spoils) :
    Exec.Spoils (forRound s call scope cond update body).run := by
  refine spoils_bind hc fun b => ?_
  cases b with
  | false => exact spoils_pure _
  | true => exact spoils_bind hb (spoils_forNext s call scope hu)

theorem spoils_loopRound {body : List Stmt} {continuing : Option (List Stmt)}
    (hb : ∀ scope, (stmts s call scope body).Spoils)
    (hp : ∀ scope, (continuingPart s call scope continuing).Spoils) :
    Exec.Spoils (loopRound s call scope body continuing).run := by
  refine spoils_ofExec (Exec.spoils_bind (Exec.spoils_inScope fun scope => ?_) fun _ =>
    Exec.spoils_pure _)
  exact Exec.spoils_bind (hb scope) (spoils_loopNext s call scope (hp scope))

end Eval

section

variable {lax : Prop} {s : Shader} {names calls : String → Prop} {base : Spot} {o : Overlay}
  {c c' : Surroundings} {p q : Spot} {k j start target : Nat} {R R' : Machine → Machine → Prop}
  {t : Session} {flow ending : Flow} {m m₁ m₂ m' m₁' m₂' : Machine} {cs : List Command}
  {scope : ScopeId} {line l l₁ l₂ : Nat} {e : RunError}

/-- Each round leads back to the begin of the loop, ends it or fails. A loop that is abandoned has
come back as often as it may. -/
theorem yields_rounds (s : Shader) {round : Eval (Option Flow)} (poised : Machine → Session → Prop)
    (done : Session → Flow → Machine → Prop) (failed : Session → RunError → Machine → Prop)
    (hs : Exec.Spoils round.run) (hcalm : ∀ m t, poised m t → m.discarded = false)
    (hround : ∀ m t, poised m t → Eval.Yields lax m round
      (fun ending m₁ => t.Keeps lax base s (ending.elim (∃ t', Session.Restarts base s t t' ∧ poised m₁ t')
        fun flow => done t flow m₁))
      fun e m₁ => t.Keeps lax base s (failed t e m₁))
    (hdone : ∀ t t' flow m, Session.Leads base s t t' → done t' flow m → done t flow m)
    (hfailed : ∀ t t' e m, Session.Leads base s t t' → failed t' e m → failed t e m) (n : Nat)
    {m : Machine} {t : Session} (h : poised m t) :
    Eval.Yields lax m (rounds round n) (fun flow m₁ => t.Keeps lax base s (done t flow m₁))
      fun e m₁ => Session.Laps base s n t ∨ t.Keeps lax base s (failed t e m₁) := by
  induction n generalizing m t with
  | zero => exact Eval.yields_throw (fun _ => hcalm m t h) fun _ => Or.inl trivial
  | succ n ih =>
    refine ((hround m t h).imp (fun _ _ => id) fun e m₁ _ => Or.inr).bind
      (fun ending m₁ calm keeps => ?_) fun ending => ?_
    · obtain departs | hending := keeps
      · exact Eval.yields_of_all departs.1 (fun _ _ => Or.inl departs) fun _ _ => Or.inr (Or.inl departs)
      cases ending with
      | none =>
        obtain ⟨t', hrestarts, h'⟩ := hending
        have leads : Session.Leads base s t t' := hrestarts.1.to_reflTransGen
        refine (ih h').imp (fun flow m₂ keeps => ?_) fun e m₂ _ laps => ?_
        · exact (keeps.head leads).imp (hdone t t' flow m₂ leads)
        · refine laps.imp (fun laps => ⟨t', hrestarts, laps⟩) fun keeps => ?_
          exact (keeps.head leads).imp (hfailed t t' e m₂ leads)
      | some flow => exact Eval.yields_pure calm (Or.inr hending)
    · cases ending with
      | none => exact Eval.spoils_rounds hs n
      | some flow => exact Eval.spoils_pure flow

/-- The session stands at a position, with a machine like that of the run. -/
def Spot.Stands (q : Spot) (R : Machine → Machine → Prop) (k : Nat) (m : Machine) (t : Session) :
    Prop :=
  m.discarded = false ∧ ∃ m' line, R m m' ∧ t = q.standing m' k line

/-- A loop whose frame closes as another is behind it. -/
theorem yields_repeated {round : Eval (Option Flow)} (poised : Machine → Machine → Prop)
    (hs : Exec.Spoils round.run)
    (hround : ∀ m m' l, m.discarded = false → poised m m' → Eval.Yields lax m round
      (fun ending m₁ => (q.standing m' 0 l).Keeps lax base s (ending.elim
        (∃ t', Session.Restarts base s (q.standing m' 0 l) t' ∧ q.Stands poised 0 m₁ t')
        fun flow => Arrives base s R c p k (q.standing m' 0 l) flow m₁))
      fun e m₁ => (q.standing m' 0 l).Keeps lax base s (Fails base s R p k (q.standing m' 0 l) e m₁))
    (calm : m.discarded = false) (h : poised m m') (ht : Session.Leads base s t (q.standing m' 0 l)) :
    Eval.Yields lax m (repeated round) (fun flow m₁ => t.Keeps lax base s (Arrives base s R c p k t flow m₁))
      fun e m₁ => t.Keeps lax base s (Fails base s R p k t e m₁) := by
  have rounds := yields_rounds s (q.Stands poised 0)
    (fun t flow m => Arrives base s R c p k t flow m) (fun t e m => Fails base s R p k t e m) hs
    (fun _ _ h => h.1) (fun m t ⟨calm, m', l, hm, ht⟩ => ht ▸ hround m m' l calm hm)
    (fun _ _ _ _ hleads h => h.head hleads) (fun _ _ _ _ hleads h => h.head hleads)
    (maxLoopIterations + 1) ⟨calm, m', l, h, rfl⟩
  refine rounds.imp (fun flow m₁ keeps => ?_) fun e m₁ hlax h => ?_
  · exact (keeps.head ht).imp fun arrives => arrives.head ht
  · obtain laps | keeps := h
    · exact Or.inl ⟨hlax, .tires ht laps⟩
    · exact (keeps.head ht).imp fun fails => fails.head ht

/-- A round that leaves the begin of the loop comes back to it. -/
theorem Spot.restarts (hk : q.frame.kind = .loop start) (hne : j ≠ 0)
    (h₁ : Session.Leads base s (q.standing m 0 l) (q.standing m₁ j l₁))
    (h₂ : Session.Leads base s (q.standing m₁ j l₁) (q.standing m₂ 0 l₂)) :
    Session.Restarts base s (q.standing m 0 l) (q.standing m₂ 0 l₂) := by
  have moves : (q.standing m 0 l).frames ≠ (q.standing m₁ j l₁).frames := by
    intro same
    have cursor := congrArg Frame.cursor (List.cons.inj same).1
    exact hne cursor.symm
  refine ⟨(h₁.strict moves).trans_left h₂, ?_, ?_, rfl⟩
  · exact ⟨q.frame.placed 0 l, q.below, start, rfl, hk, rfl⟩
  · exact ⟨q.frame.placed 0 l₂, q.below, start, rfl, hk, rfl⟩

/-- A round that comes to the end of the commands. -/
theorem Spot.restarts_again (hp : p.On base)
    (h : Session.Leads base s ((p.inside (.loop start) cs scope k line).standing m 0 l)
      ((p.inside (.loop start) cs scope k line).standing m₁ cs.length l₁)) :
    Session.Restarts base s ((p.inside (.loop start) cs scope k line).standing m 0 l)
      ((p.inside (.loop start) cs scope k line).standing m₁ 0 l₁) := by
  refine ⟨.tail' h (Spot.proceeds_again hp), ?_, ?_, rfl⟩
  · exact ⟨_, _, start, rfl, rfl, rfl⟩
  · exact ⟨_, _, start, rfl, rfl, rfl⟩

/-- A body behind which the loop goes on. -/
theorem Arrives.turned
    (h : Arrives base s R' c' (p.inside (.loop start) cs scope k line) target t flow m)
    (ha : afterBody flow = none) (hstart : flow = .continue_ → start = target) : ∃ m' l, R' m m' ∧
      Session.Leads base s t ((p.inside (.loop start) cs scope k line).standing m' target l) := by
  obtain ⟨-, -, m', j, l, hm', hj, hleads⟩ := h
  cases flow with
  | normal =>
    cases hj rfl
    exact ⟨m', l, hm', hleads⟩
  | continue_ =>
    cases hstart rfl
    exact ⟨m', l, hm', hleads⟩
  | break_ => cases ha
  | return_ v => cases ha
  | discard => cases ha

/-- A body that ends the loop. -/
theorem Arrives.closed
    (h : Arrives base s R' c' (p.inside (.loop start) cs scope k line) target t flow m)
    (ha : afterBody flow = some ending) (hR : ∀ m', R' m m' → R m (m'.popped scope)) :
    Arrives base s R c p k t ending m := by
  obtain ⟨calm, -, m', j, l, hm', hj, hleads⟩ := h
  cases flow with
  | normal => cases ha
  | continue_ => cases ha
  | break_ =>
    cases ha
    exact arrives_normal calm (hR m' hm') hleads
  | return_ v =>
    cases ha
    have inner : FrameKind.loop start ≠ .function := nofun
    exact ⟨calm, trivial, m'.popped scope, k, line, hR m' hm', nofun, Spot.performs_inside inner hleads⟩
  | discard =>
    cases ha
    exact ⟨calm, trivial, m'.popped scope, k, line, hR m' hm', nofun, hleads⟩

/-- The frame of a loop has a scope that the run does not have. -/
theorem Spot.Meets.deepened (h : p.Meets base o c) (cs : List Command) (k line : Nat)
    (may : String → Prop) :
    (p.inside (.loop start) cs (o.scope' + 1) k line).Meets base (o.deepened may) c.looping where
  lies := h.lies.inside cs _ k line (fun _ => rfl) fun _ => rfl
  scope := rfl
  sight := h.sight

theorem Spot.Meets.rebound (h : q.Meets base o c) {w : Overlay} (hw : o.Rebound w) : q.Meets base w c := by
  obtain ⟨mate, stale, rfl, -⟩ := hw
  exact { lies := h.lies, scope := h.scope, sight := h.sight }

theorem leads_loop (hmeets : p.Meets base o c) (hm : o.Related lax names m m')
    (hc : p.frame.commands[k]? = some (.loop cs start)) (line : Nat) :
    Session.Leads base s (p.standing m' k line)
      ((p.inside (.loop start) cs (o.scope' + 1) (k + 1) line).standing (m'.pushed o.scope') 0
        line) := by
  rw [← hm.depth', ← hmeets.scope]
  exact Spot.leads_loop hmeets.lies.on hc

/-! ## Loops with a condition -/

/-- The condition at the begin of a loop has been decided. -/
def Tests (base : Spot) (s : Shader) (R : Machine → Machine → Prop) (q : Spot) (k : Nat) (start : Session)
    (holds : Bool) (m : Machine) : Prop :=
  m.discarded = false ∧ ∃ m' l, R m m' ∧
    start.Ends base s (if holds then .normal else .break_) (q.standing m' k l)

theorem Tests.ends (h : Tests base s R' (p.inside (.loop start) cs scope k line) j t false m)
    (hR : ∀ m', R' m m' → R m (m'.popped scope)) : Arrives base s R c p k t .normal m := by
  obtain ⟨calm, m', l, hm', hleads⟩ := h
  exact arrives_normal calm (hR m' hm') hleads

theorem Tests.fails
    (h : Tests base s R' (p.inside (.loop start) cs scope k line) j t false (m.reporting e))
    (hR : ∀ m', R' (m.reporting e) m' → R (m.reporting e) (m'.popped scope)) :
    Fails base s R p k t e m := by
  obtain ⟨calm, m', l, hm', hleads⟩ := h
  exact ⟨calm, m'.popped scope, line, hR m' hm', hleads⟩

variable (hcall : (Overlay.correspondence lax names calls).Answers s (Eval.call s) (Eval.call s))

include hcall

/-- The condition of a loop, in whose frame it stands. One that fails ends the loop. -/
theorem yields_goesOn {cond : Option Expr}
    (he : ∀ n ∈ Expr.countNodes cond, n.Admitted (Overlay.correspondence lax names calls))
    (hu : ∀ x, (∃ e ∈ cond, e.Uses x) → Knows lax o o.scope x) (hq : q.Meets base o c)
    (hc : q.Holds 0 (Command.ofLoopCondition? line cond)) (hb : c.breaks)
    (calm : m.discarded = false) (hm : o.Related lax names m m') (l : Nat) :
    Eval.Yields lax m (goesOn s (Eval.call s) o.scope cond)
      (fun b m₁ => (q.standing m' 0 l).Keeps lax base s (Tests base s (o.Related lax names) q
        (Command.ofLoopCondition? line cond).length (q.standing m' 0 l) b m₁))
      fun e m₁ => (q.standing m' 0 l).Keeps lax base s (Tests base s (o.Related lax names) q
        (Command.ofLoopCondition? line cond).length (q.standing m' 0 l) false (m₁.reporting e)) := by
  cases cond with
  | none => exact Eval.yields_pure (fun _ => calm) (Or.inr ⟨calm, m', l, hm, .refl⟩)
  | some e =>
    have sim := evalSim_test hcall he (fun x hx => hu x ⟨e, rfl, hx⟩)
    have test := yields_test (f := fun b => if b != true then .break_ else .next) hq hc.head rfl l rfl
      sim hm
    have tests : ∀ {b : Bool} {n : Machine}, Asks base s (o.Related lax names) q 0 (.breakIf line e true)
        (q.standing m' 0 l) (if b != true then .break_ else .next) n →
        Tests base s (o.Related lax names) q 1 (q.standing m' 0 l) b n := by
      rintro b n ⟨calm, n', hn, performs⟩
      cases b with
      | true => exact ⟨calm, n', line, hn, performs.leads rfl⟩
      | false =>
        have leaves : (q.standing m' 0 l).Performs base s (Step.apply line Flow.break_.move)
            (q.standing n' 1 line) := performs
        exact ⟨calm, n', line, hn, Spot.ends_of_performs leaves hq.lies hb⟩
    exact test.imp (fun b m₁ keeps => keeps.imp tests) fun err m₁ _ keeps =>
      keeps.imp fun asks => tests asks.2

theorem drives_while (hmeets : p.Meets base o c) {e : Expr} {body : List Stmt}
    (hc : p.frame.commands[k]? = some (.loop [.breakIf line e true, .block cs] 0))
    (he : ∀ n ∈ e.nodes, n.Admitted (Overlay.correspondence lax names calls))
    (hu : ∀ x, e.Uses x → Knows lax o o.scope x)
    (hcond : Exec.Spoils (condition s (Eval.call s) o.scope e).run)
    (hbody : Exec.Spoils (inBlock o.scope fun scope => stmts s (Eval.call s) scope body).run)
    (h : DrivesInside lax base s names (o.deepened fun _ => False)
      (c.looping.within (Stmt.declared body)) cs fun scope => stmts s (Eval.call s) scope body) :
    Drives lax base s names o [] c p k (k + 1)
      (Eval.stmt s (Eval.call s) o.scope (.whileLoop line e body)) := by
  rw [Eval.stmt_while]
  refine EvalDrives.settled line (.of_calm fun m m' l calm hm => ?_)
  let w := o.deepened fun _ => False
  let q := p.inside (.loop 0) [.breakIf line e true, .block cs] (o.scope' + 1) (k + 1) l
  have hq : q.Meets base w c.looping := hmeets.deepened _ (k + 1) l _
  have back : ∀ {n n' : Machine}, w.Related lax names n n' →
      o.Related lax names n (n'.popped (o.scope' + 1)) := fun hn => hn.surface hm.sound
  have test : q.Holds 0 (Command.ofLoopCondition? line (some e)) := ⟨[.block cs], rfl⟩
  have admitted : ∀ n ∈ Expr.countNodes (some e),
    n.Admitted (Overlay.correspondence lax names calls) := he
  have known : ∀ x, (∃ e' ∈ some e, e'.Uses x) → Knows lax w w.scope x := by
    rintro x ⟨_, ⟨⟩, hx⟩
    exact hu x hx
  have inner : q.frame.commands[1]? = some (.block cs) := rfl
  refine yields_repeated (q := q) (w.Related lax names) (Eval.spoils_whileRound _ _ _ hcond hbody)
    (fun m m' l calm hm => ?_) calm (hm.deepened _) (leads_loop hmeets hm hc l)
  refine ((yields_goesOn hcall admitted known hq test trivial calm hm l).imp (fun _ _ => id)
    fun e m₁ _ keeps => keeps.imp fun tests => tests.fails fun _ => back).bind
      (fun b m₁ calm keeps => ?_) fun b => ?_
  · obtain departs | tests := keeps
    · exact Eval.yields_of_all departs.1 (fun _ _ => Or.inl departs) fun _ _ => Or.inl departs
    cases b with
    | false => exact Eval.yields_pure calm (Or.inr (tests.ends fun _ => back))
    | true =>
      obtain ⟨-, m₁', l₁, hm₁, hleads⟩ := tests
      have block := drives_block hq inner h m₁ m₁' l₁ hm₁
      refine (Eval.yields_ofExec block).bind (fun flow m₂ calm keeps => ?_) fun _ =>
        Eval.spoils_pure _
      refine Eval.yields_pure calm ((keeps.head hleads).imp fun arrives => ?_)
      rw [Overlay.behind_nil] at arrives
      have again := arrives.onward fun m' l => .single (Spot.proceeds_again hmeets.lies.on)
      cases ha : afterBody flow with
      | some ending => exact (again.head hleads).closed ha fun _ => back
      | none =>
        obtain ⟨m₂', l₂, hm₂, hback⟩ := again.turned ha fun _ => rfl
        exact ⟨_, Spot.restarts rfl Nat.one_ne_zero hleads hback, arrives.1, m₂', l₂, hm₂, rfl⟩
  · cases b with
    | true => exact Eval.spoils_bind hbody fun flow => Eval.spoils_pure _
    | false => exact Eval.spoils_pure _

/-- A simple statement in a header. The names that it declares are bound by the scope of the frame. -/
theorem yields_header {st? : Option SimpleStmt} (hq : q.Meets base o c)
    (hc : q.Holds k (Command.ofSimple? st?))
    (hn : ∀ n ∈ st?.elim [] SimpleStmt.nodes, n.Admitted (Overlay.correspondence lax names calls))
    (hu : ∀ x, (∃ st ∈ st?, st.Uses x) → Knows lax o o.scope x)
    (hd : ∀ n ∈ SimpleStmt.declared st?, o.may o.scope' n ∧ o.sight o.scope n)
    (calm : m.discarded = false) (hm : o.Related lax names m m') (l : Nat) :
    (header s (Eval.call s) o.scope st?).Yields lax m fun _ m₁ => (q.standing m' k l).Keeps lax base s
      (m₁.discarded = false ∧ ∃ w m₁' l₁, o.Rebound w ∧
        (∀ n ∈ SimpleStmt.declared st?, Knows lax w w.scope n) ∧ w.Related lax names m₁ m₁' ∧
        Session.Leads base s (q.standing m' k l)
          (q.standing m₁' (k + (Command.ofSimple? st?).length) l₁)) := by
  cases st? with
  | none =>
    refine Exec.yields_pure (fun _ => calm) (Or.inr ⟨calm, o, m', l, Overlay.rebound_refl, ?_, hm, .refl⟩)
    exact fun n hn => absurd hn List.not_mem_nil
  | some st =>
    have declared : ∀ n ∈ st.action.declares?, o.may o.scope' n ∧ o.sight o.scope n :=
      fun n hn => hd n (Option.mem_toList.2 hn)
    have action := Overlay.evalSim_action hcall (fun _ h => h) declared
      (SimpleStmt.admitted_of_uses hn fun x hx => hu x ⟨st, rfl, hx⟩)
    have sim := evalSim_bind action fun _ _ => evalSim_pure
      (Q := fun flow flow' : Flow => flow' = flow ∧ flow = .normal)
      (a := .normal) fun _ => ⟨rfl, rfl⟩
    have ended := yields_whole (P := (· = .normal)) (l := st.line) hq hc.head rfl l
      (fun _ h => h ▸ rfl) rfl rfl sim hm
    refine ended.bind (fun flow m₁ calm keeps => ?_) fun _ => Exec.spoils_pure _
    refine Exec.yields_pure calm (keeps.imp fun ⟨hflow, quiet, m₁', hm₁, performs⟩ => ?_)
    subst hflow
    refine ⟨quiet, _, m₁', st.line, ?_, fun n hn => ?_, hm₁, performs.leads rfl⟩
    · cases st.action.declares? with
      | none => exact Overlay.rebound_refl
      | some n => exact (Overlay.rebound_refl.moved).settled [n]
    · have binds : st.action.declares? = some n := Option.mem_toList.1 hn
      rw [binds]
      exact Overlay.knows_settled (List.mem_singleton_self n)

/-- What is left of a loop once its frame is closed. -/
def Overlay.Closed (lax : Prop) (o : Overlay) (names : String → Prop) (scope : ScopeId)
    (m m' : Machine) : Prop :=
  ∃ w n, o.Rebound w ∧ w.Related lax names m n ∧ m' = n.popped scope

/-- A round of a `for` leads back to the begin of its frame or closes it. The names of its header are
bound by one scope or the other. -/
theorem yields_forRound (hp : p.On base) {cond : Option Expr} {update : Option SimpleStmt} {body : List Stmt}
    {commands : List Command} {l' : Nat}
    (hstart : start = (Command.ofLoopCondition? line cond).length + 1)
    (hcs : commands = Command.ofLoopCondition? line cond ++ .block cs :: Command.ofSimple? update)
    (hq : (p.inside (.loop start) commands scope k l).Meets base o c) (hb : c.breaks)
    (hcond : ∀ n ∈ Expr.countNodes cond, n.Admitted (Overlay.correspondence lax names calls))
    (huc : ∀ x, (∃ e ∈ cond, e.Uses x) → Knows lax o o.scope x)
    (hupdate : ∀ n ∈ update.elim [] SimpleStmt.nodes,
      n.Admitted (Overlay.correspondence lax names calls))
    (huu : ∀ x, (∃ st ∈ update, st.Uses x) → Knows lax o o.scope x)
    (hd : ∀ n ∈ SimpleStmt.declared update, o.may o.scope' n ∧ o.sight o.scope n)
    (hsu : (header s (Eval.call s) o.scope update).Spoils)
    (hbody : Exec.Spoils (inBlock o.scope fun scope => stmts s (Eval.call s) scope body).run)
    (h : ∀ w, o.Rebound w → DrivesInside lax base s names w (c.within (Stmt.declared body)) cs
      fun scope => stmts s (Eval.call s) scope body)
    (calm : m.discarded = false) (hm : ∃ w, o.Rebound w ∧ w.Related lax names m m') :
    Eval.Yields lax m (Eval.forRound s (Eval.call s) o.scope cond update body)
      (fun ending m₁ => ((p.inside (.loop start) commands scope k l).standing m' 0 l').Keeps lax base s
        (ending.elim (∃ t', Session.Restarts base s
            ((p.inside (.loop start) commands scope k l).standing m' 0 l') t' ∧
          (p.inside (.loop start) commands scope k l).Stands
            (fun m m' => ∃ w, o.Rebound w ∧ w.Related lax names m m') 0 m₁ t')
          fun flow => Arrives base s (o.Closed lax names scope) c' p k
            ((p.inside (.loop start) commands scope k l).standing m' 0 l') flow m₁))
      fun e m₁ => ((p.inside (.loop start) commands scope k l).standing m' 0 l').Keeps lax base s
        (Fails base s (o.Closed lax names scope) p k
          ((p.inside (.loop start) commands scope k l).standing m' 0 l') e m₁) := by
  obtain ⟨w, hw, hm'⟩ := hm
  have knows : ∀ {x w}, o.Rebound w → Knows lax o o.scope x → Knows lax w w.scope x := by
    rintro x w ⟨mate, stale, rfl, -, hstale⟩ known
    exact known.imp id fun fresh hs => fresh (hstale x hs)
  have hq := hq.rebound hw
  have whole := Spot.Holds.whole (p.inside (.loop start) commands scope k l)
  have layout : (p.inside (.loop start) commands scope k l).frame.commands =
    Command.ofLoopCondition? line cond ++ .block cs :: Command.ofSimple? update := hcs
  rw [layout] at whole
  have onward := whole.right
  rw [Nat.zero_add] at onward
  have last := onward.tail
  rw [← hstart] at last
  have length : start + (Command.ofSimple? update).length = commands.length := by
    rw [hcs, hstart, List.length_append, List.length_cons]
    omega
  have hscope : w.scope = o.scope ∧ w.scope' = o.scope' ∧ w.may = o.may ∧ w.sight = o.sight := by
    obtain ⟨mate, stale, rfl, -⟩ := hw
    exact ⟨rfl, rfl, rfl, rfl⟩
  obtain ⟨same, same', may, sight⟩ := hscope
  have closed : ∀ {n n'}, w.Related lax names n n' → o.Closed lax names scope n (n'.popped scope) :=
    fun hn => ⟨w, _, hw, hn, rfl⟩
  have test := yields_goesOn hcall hcond (fun x hx => knows hw (huc x hx)) hq whole.left hb calm hm' l'
  rw [same] at test
  refine (test.imp (fun _ _ => id) fun e m₁ _ keeps => keeps.imp fun tests =>
    tests.fails fun _ => closed).bind (fun b m₁ calm keeps => ?_) fun b => ?_
  · obtain departs | tests := keeps
    · exact Eval.yields_of_all departs.1 (fun _ _ => Or.inl departs) fun _ _ => Or.inl departs
    cases b with
    | false => exact Eval.yields_pure calm (Or.inr (tests.ends fun _ => closed))
    | true =>
      obtain ⟨-, m₁', l₁, hm₁, hleads⟩ := tests
      have block := drives_block hq onward.head (h w hw) m₁ m₁' l₁ hm₁
      rw [← hstart, same] at block
      refine (Eval.yields_ofExec block).bind (fun flow m₂ calm keeps => ?_) fun flow => ?_
      · have keeps := keeps.head hleads
        obtain departs | arrives := keeps
        · exact Eval.yields_of_all departs.1 (fun _ _ => Or.inl departs) fun _ _ => Or.inl departs
        have arrives := arrives.head hleads
        rw [Overlay.behind_nil] at arrives
        unfold Eval.forNext
        cases ha : afterBody flow with
        | some ending => exact Eval.yields_pure calm (Or.inr (arrives.closed ha fun _ => closed))
        | none =>
          obtain ⟨m₂', l₂, hm₂, hleads'⟩ := arrives.turned ha fun _ => rfl
          have sees : ∀ n ∈ SimpleStmt.declared update, w.may w.scope' n ∧ w.sight w.scope n := by
            rw [may, sight, same, same']
            exact hd
          have header := yields_header hcall hq last hupdate (fun x hx => knows hw (huu x hx)) sees
            arrives.1 hm₂ l₂
          rw [same] at header
          refine (Eval.yields_ofExec header).bind (fun _ m₃ calm keeps => ?_) fun _ =>
            Eval.spoils_pure _
          refine Eval.yields_pure calm ((keeps.head hleads').imp fun
            ⟨quiet, w', m₃', l₃, hw', _, hm₃, hleads''⟩ => ?_)
          rw [length] at hleads''
          refine ⟨_, Spot.restarts_again hp (hleads'.trans hleads''), quiet, m₃', l₃, ?_, rfl⟩
          exact ⟨w', hw.trans hw', hm₃⟩
      · exact Eval.spoils_forNext s (Eval.call s) o.scope hsu flow
  · cases b with
    | false => exact Eval.spoils_pure _
    | true => exact Eval.spoils_bind hbody (Eval.spoils_forNext s (Eval.call s) o.scope hsu)

omit hcall in
/-- A statement that has failed in a block has failed behind it. -/
theorem Fails.close_block
    (h : Fails base s R' (p.inside .block cs scope k line) cs.length t e m₁) (hp : p.On base)
    (hR : ∀ m', R' (m₁.reporting e) m' → R (m₂.reporting e) (m'.popped scope))
    (calm : m₂.discarded = m₁.discarded) : Fails base s R p k t e m₂ := by
  obtain ⟨quiet, m', l, hm', hleads⟩ := h
  exact ⟨calm.trans quiet, m'.popped scope, line, hR m' hm',
    hleads.trans (Spot.leads_close hp (Or.inl rfl))⟩

theorem drives_for (hmeets : p.Meets base o c) {init update : Option SimpleStmt} {cond : Option Expr}
    {body : List Stmt}
    (hc : p.frame.commands[k]? = some (.block (Command.ofSimple? init ++
      [.loop (Command.ofLoopCondition? line cond ++ .block cs :: Command.ofSimple? update)
        ((Command.ofLoopCondition? line cond).length + 1)])))
    (hinit : ∀ n ∈ init.elim [] SimpleStmt.nodes,
      n.Admitted (Overlay.correspondence lax names calls))
    (hui : ∀ x, (∃ st ∈ init, st.Uses x) → Knows lax o o.scope x)
    (hcond : ∀ n ∈ Expr.countNodes cond, n.Admitted (Overlay.correspondence lax names calls))
    (huc : ∀ x ∉ SimpleStmt.declared init, (∃ e ∈ cond, e.Uses x) → Knows lax o o.scope x)
    (hupdate : ∀ n ∈ update.elim [] SimpleStmt.nodes,
      n.Admitted (Overlay.correspondence lax names calls))
    (huu : ∀ x ∉ SimpleStmt.declared init, (∃ st ∈ update, st.Uses x) → Knows lax o o.scope x)
    (hsc : ∀ scope, Exec.Spoils (goesOn s (Eval.call s) scope cond).run)
    (hsu : ∀ scope, (header s (Eval.call s) scope update).Spoils)
    (hbody : ∀ scope,
      Exec.Spoils (inBlock scope fun scope => stmts s (Eval.call s) scope body).run)
    (hbodies : ∀ w : Overlay, (∀ x, Knows lax o o.scope x ∨ x ∈ SimpleStmt.declared init →
      Knows lax w w.scope x) → DrivesInside lax base s names w
        ((c.within (SimpleStmt.declared init ++ SimpleStmt.declared update)).looping.within
          (Stmt.declared body)) cs fun scope => stmts s (Eval.call s) scope body) :
    Drives lax base s names o [] c p k (k + 1)
      (Eval.stmt s (Eval.call s) o.scope (.forLoop line init cond update body)) := by
  rw [Eval.stmt_for]
  refine EvalDrives.settled line (.of_calm fun m m' l calm hm => Eval.yields_inScope ?_)
  rw [hm.depth]
  let heads := SimpleStmt.declared init ++ SimpleStmt.declared update
  let inner := o.inside (c.within heads)
  let loop := Command.ofLoopCondition? line cond ++ .block cs :: Command.ofSimple? update
  let start := (Command.ofLoopCondition? line cond).length + 1
  let b := p.inside .block (Command.ofSimple? init ++ [.loop loop start]) (o.scope' + 1) (k + 1) l
  have meets : b.Meets base inner (c.within heads) := by
    exact hmeets.inside _ (k + 1) l _ _ hmeets.lies.breaks hmeets.lies.continues
  have opened : Session.Leads base s (p.standing m' k l) (b.standing (m'.pushed o.scope') 0 l) :=
    leads_block hmeets hm hc l
  have entered : inner.Related lax names (m.pushed o.scope) (m'.pushed o.scope') :=
    hm.block _ fun n hn => Or.inl (hmeets.sight n hn)
  have calm : (m.pushed o.scope).discarded = false := calm
  have whole := Spot.Holds.whole b
  have sees : ∀ n ∈ heads, inner.may inner.scope' n ∧ inner.sight inner.scope n := fun n hn =>
    have declares : inner.Declares n := Overlay.declares_block trivial (Or.inr hn)
    ⟨declares.may, declares.sight⟩
  have length : (Command.ofSimple? init).length + 1 =
      (Command.ofSimple? init ++ [Command.loop loop start]).length := by
    rw [List.length_append]
    rfl
  have head := yields_header hcall meets whole.left hinit (fun x hx => (hui x hx).inside)
    (fun n hn => sees n (List.mem_append_left _ hn)) calm entered l
  have spoils := Eval.spoils_forRound s (Eval.call s) (o.scope + 1) (hsc _) (hbody _) (hsu _)
  refine (Eval.yields_ofExec head).bind (fun _ m₁ calm keeps => ?_) fun _ =>
    Eval.spoils_rounds spoils _
  obtain departs | ⟨quiet, headed, m₁', l₁, hrebound, hdeclared, hm₁, hleads⟩ := keeps.head opened
  · exact Eval.yields_of_all departs.1 (fun _ _ => Or.inl departs) fun _ _ => Or.inl departs
  -- the names of `init` are bound by the scope of the block, those of the update by that of the loop
  obtain ⟨mate, stale, rfl, hold, hstale⟩ := hrebound
  have hrebound : inner.Rebound { inner with mate, stale } := ⟨mate, stale, rfl, hold, hstale⟩
  let looped := ({ inner with mate, stale } : Overlay).deepened (· ∈ SimpleStmt.declared update)
  have below : o.Below looped := (Overlay.below_entered.rebound hrebound).deepened
  have known : ∀ x, Knows lax o o.scope x ∨ x ∈ SimpleStmt.declared init →
      Knows lax looped looped.scope x := by
    rintro x (hx | hx)
    · exact hx.inside.imp id fun fresh hs => fresh (hstale x hs)
    · exact hdeclared x hx
  have standing := meets.rebound hrebound
  let q := b.inside (.loop start) loop (inner.scope' + 1) ((Command.ofSimple? init).length + 1) l₁
  have hq : q.Meets base looped (c.within heads).looping := standing.deepened loop _ l₁ _
  have loops := whole.right.head
  rw [Nat.zero_add] at hleads loops
  have begun := leads_loop (s := s) standing hm₁ loops l₁
  have updates : ∀ n ∈ SimpleStmt.declared update, looped.may looped.scope' n ∧
      looped.sight looped.scope n := by
    refine fun n hn => ⟨?_, (sees n (List.mem_append_right _ hn)).2⟩
    change looped.may (inner.scope' + 1) n
    rw [Overlay.deepened_may]
    exact hn
  have rounds := yields_repeated (q := q) (fun m m' => ∃ w, looped.Rebound w ∧ w.Related lax names m m')
    (R := looped.Closed lax names (inner.scope' + 1)) (c := c.within heads) (p := b)
    (k := (Command.ofSimple? init).length + 1) (s := s) spoils
    (fun m m' l calm hm => yields_forRound hcall meets.lies.on rfl rfl hq trivial hcond
      (fun x hx => known x (or_iff_not_imp_right.2 fun hn => huc x hn hx)) hupdate
      (fun x hx => known x (or_iff_not_imp_right.2 fun hn => huu x hn hx)) updates (hsu _) (hbody _)
      (fun w hw => hbodies w fun x hx => by
        obtain ⟨mate, stale, rfl, -, hstale⟩ := hw
        exact (known x hx).imp id fun fresh hs => fresh (hstale x hs)) calm hm)
    quiet ⟨looped, Overlay.rebound_refl, hm₁.deepened _⟩ ((opened.trans hleads).trans begun)
  have shut : ∀ {n n'}, looped.Closed lax names (inner.scope' + 1) n n' →
      o.Related lax names (n.popped (o.scope + 1)) (n'.popped (o.scope' + 1)) := by
    rintro n _ ⟨w, n', hw, hn, rfl⟩
    have both : (n'.popped (inner.scope' + 1)).popped (o.scope' + 1) = n'.popped (o.scope' + 1) :=
      Machine.popped_popped (Nat.succ_pos _) (Nat.le_succ _)
    rw [both]
    exact hn.leave hm.sound (below.rebound hw)
  refine rounds.imp (fun flow m₂ keeps => keeps.imp fun arrives => ?_) fun e m₂ _ keeps =>
    keeps.imp fun fails => ?_
  · rw [length] at arrives
    refine arrives.close_block hmeets.lies.on (fun _ => shut) (fun hl => ?_) rfl
    cases flow <;> exact hl
  · rw [length] at fails
    exact fails.close_block hmeets.lies.on (fun _ => shut) rfl

omit hcall

/-! ## Loops with a `continuing` part -/

/-- The overlay in a round of a `loop`, whose scope the session has used before: the names that the
loop declares may stand there already. -/
def Overlay.cycling (o : Overlay) (c : Surroundings) (ns : List String) : Overlay :=
  o.block (· ∈ ns) (c.within ns).names fun n => o.stale o.scope n ∨ n ∈ ns

theorem Overlay.declares_cycling {ns : List String} {n : String} (h : n ∈ ns) :
    (o.cycling c ns).Declares n :=
  Overlay.declares_block h (Or.inr h)

/-- What the loop does not declare is known in its scope if it is known outside. -/
theorem Overlay.Knows.cycling {ns : List String} {name : String} (h : Knows lax o o.scope name)
    (hn : name ∉ ns) : Knows lax (o.cycling c ns) (o.cycling c ns).scope name :=
  Overlay.knows_entered (h.imp id fun fresh => not_or.2 ⟨fresh, hn⟩)

/-- The session stands in a loop that the run has left for its next round: the scope of the loop is
still open. -/
def Overlay.Open (lax : Prop) (o : Overlay) (names : String → Prop) (ns : List String)
    (m m' : Machine) : Prop :=
  o.Related lax names m (m'.popped (o.scope' + 1)) ∧
    Overlay.Above (m'.popped (o.scope' + 1)).scopes m'.scopes o.scope' (· ∈ ns)

theorem Overlay.Related.opened (h : o.Related lax names m m') (ns : List String) :
    o.Open lax names ns m (m'.pushed o.scope') := by
  have closed : (m'.pushed o.scope').popped (o.scope' + 1) = m' := by
    rw [← h.depth']
    exact Machine.popped_pushed (Nat.lt_of_lt_of_eq (Nat.succ_pos _) h.depth'.symm)
  unfold Open
  rw [closed]
  exact ⟨h, h.above_pushed _⟩

/-- The run enters the scope that the session is in. -/
theorem Overlay.Open.enter {ns : List String} (h : o.Open lax names ns m m')
    (hfresh : ∀ n ∈ ns, ¬c.names n) (hsight : ∀ n, o.sight o.scope n → c.names n) :
    (o.cycling c ns).Related lax names (m.pushed o.scope) m' :=
  h.1.reenter h.2 (fun n hn hs => hfresh n hn (hsight n hs)) (fun n hn => Or.inl (hsight n hn))
    (fun _ hn => Or.inr hn) fun _ hn => Or.inl hn

/-- What a round of a `loop` comes to before its scope is closed: the session is back at the begin of
the frame `q`, or has closed it. -/
def Turns (base : Spot) (s : Shader) (R : Machine → Machine → Prop) (q : Spot) (c : Surroundings) (p : Spot) (k : Nat)
    (t : Session) (flow : Flow) (m : Machine) : Prop :=
  (afterBody flow).elim
    (m.discarded = false ∧ ∃ m' l, R m m' ∧ Session.Restarts base s t (q.standing m' 0 l))
    fun ending => Arrives base s (fun m m' => ∃ n, R m n ∧ m' = n.popped q.frame.scope) c p k t ending m

/-- The `continuing` part, which a `continue` does not lead back to. -/
theorem yields_part (hp : p.On base) {w o₁ : Overlay} {c₂ : Surroundings} {list : List String}
    {continuing : Option (List Stmt)} (hq : q = p.inside (.loop start) cs scope k line)
    (hends : ¬c₂.continues) (hback : ∀ {flow m m'},
      (o₁.behind list flow).Related lax names m m' → w.Related lax names m m')
    (h : Drives lax base s names o₁ list c₂ q j cs.length
      (continuingPart s (Eval.call s) w.scope continuing))
    (hm : o₁.Related lax names m m')
    (hleads : Session.Leads base s (q.standing m₁' 0 l₁) (q.standing m' j l)) :
    (continuingPart s (Eval.call s) w.scope continuing).Yields lax m fun flow m₁ =>
      (q.standing m₁' 0 l₁).Keeps lax base s
        (Turns base s (w.Related lax names) q c p k (q.standing m₁' 0 l₁) flow m₁) := by
  subst hq
  refine (h m m' l hm).mono fun flow m₂ keeps => (keeps.head hleads).imp fun arrives => ?_
  have arrives := arrives.head hleads
  unfold Turns
  cases ha : afterBody flow with
  | some ending =>
    rw [Option.elim_some]
    exact arrives.closed ha fun n hn => ⟨n, hback hn, rfl⟩
  | none =>
    have normal : flow = .continue_ → start = cs.length := by
      rintro rfl
      exact absurd arrives.2.1 hends
    obtain ⟨m₂', l₂, hm₂, hleads'⟩ := arrives.turned ha normal
    exact ⟨arrives.1, m₂', l₂, hback hm₂, Spot.restarts_again hp hleads'⟩

/-- A round of a `loop` inside its scope. A `continue` may leave names undeclared that a normal end
has declared. -/
theorem yields_loopBody (hp : p.On base) {w : Overlay} {c₁ c₂ : Surroundings} {list more : List String}
    {body : List Stmt} {continuing : Option (List Stmt)}
    (hq : q = p.inside (.loop start) cs scope k line) (hends : ¬c₂.continues)
    (hbody : Drives lax base s names w list c₁ q 0 start (stmts s (Eval.call s) w.scope body))
    (hpart : Drives lax base s names (w.settled list) more c₂ q start cs.length
      (continuingPart s (Eval.call s) w.scope continuing))
    (hagain : c₁.continues → Drives lax base s names w more c₂ q start cs.length
      (continuingPart s (Eval.call s) w.scope continuing))
    (hs : (continuingPart s (Eval.call s) w.scope continuing).Spoils)
    (hm : w.Related lax names m m') (l : Nat) :
    (Eval.loopBody s (Eval.call s) w.scope body continuing).Yields lax m fun flow m₁ =>
      (q.standing m' 0 l).Keeps lax base s
        (Turns base s (w.Related lax names) q c p k (q.standing m' 0 l) flow m₁) := by
  refine (hbody m m' l hm).bind (fun flow m₁ calm keeps => ?_)
    (Eval.spoils_loopNext s (Eval.call s) w.scope hs)
  obtain departs | arrives := keeps
  · exact Exec.yields_of_all departs.1 fun _ _ => Or.inl departs
  have ended : ∀ {ending}, afterBody flow = some ending → (w.behind list flow) = w →
      Turns base s (w.Related lax names) q c p k (q.standing m' 0 l) flow m₁ := by
    intro ending ha hw
    subst hq
    rw [hw] at arrives
    unfold Turns
    rw [ha, Option.elim_some]
    exact arrives.closed ha fun n hn => ⟨n, hn, rfl⟩
  cases flow with
  | normal =>
    obtain ⟨m₁', l₁, hm₁, hleads⟩ := (hq ▸ arrives).turned rfl nofun
    refine yields_part hp hq hends (fun {flow _ _} hn => ?_) hpart hm₁ (hq ▸ hleads)
    cases flow with
    | normal => exact hn.forget.forget
    | _ => exact hn.forget
  | continue_ =>
    obtain ⟨m₁', l₁, hm₁, hleads⟩ := (hq ▸ arrives).turned rfl fun _ => rfl
    refine yields_part hp hq hends (fun {flow _ _} hn => ?_) (hagain arrives.2.1) hm₁ (hq ▸ hleads)
    cases flow with
    | normal => exact hn.forget
    | _ => exact hn
  | break_ => exact Exec.yields_pure calm (Or.inr (ended rfl rfl))
  | return_ v => exact Exec.yields_pure calm (Or.inr (ended rfl rfl))
  | discard => exact Exec.yields_pure calm (Or.inr (ended rfl rfl))

/-- The frame of a `loop` is used for all of its rounds. -/
theorem drives_loop (hmeets : p.Meets base o c) {body : List Stmt} {continuing : Option (List Stmt)}
    {c₁ c₂ : Surroundings} {list more : List String}
    (hc : p.frame.commands[k]? = some (.loop cs start))
    (hfresh : ∀ n ∈ Stmt.loopNames body continuing, ¬c.names n)
    (hn₁ : c₁.names = (c.within (Stmt.loopNames body continuing)).names)
    (hn₂ : c₂.names = (c.within (Stmt.loopNames body continuing)).names) (hends : ¬c₂.continues)
    (hsb : ∀ scope, (stmts s (Eval.call s) scope body).Spoils)
    (hsp : ∀ scope, (continuingPart s (Eval.call s) scope continuing).Spoils)
    (hbody : ∀ q : Spot, q.frame.commands = cs →
      q.Meets base (o.cycling c (Stmt.loopNames body continuing)) c₁ →
      Drives lax base s names (o.cycling c (Stmt.loopNames body continuing)) list c₁ q 0 start
        (stmts s (Eval.call s) (o.scope + 1) body))
    (hpart : ∀ q : Spot, q.frame.commands = cs →
      q.Meets base (o.cycling c (Stmt.loopNames body continuing)) c₂ →
      Drives lax base s names ((o.cycling c (Stmt.loopNames body continuing)).settled list) more c₂ q
        start cs.length (continuingPart s (Eval.call s) (o.scope + 1) continuing))
    (hagain : c₁.continues → ∀ q : Spot, q.frame.commands = cs →
      q.Meets base (o.cycling c (Stmt.loopNames body continuing)) c₂ →
      Drives lax base s names (o.cycling c (Stmt.loopNames body continuing)) more c₂ q
        start cs.length (continuingPart s (Eval.call s) (o.scope + 1) continuing)) :
    Drives lax base s names o [] c p k (k + 1)
      (Eval.stmt s (Eval.call s) o.scope (.loop line body continuing)) := by
  rw [Eval.stmt_loop]
  refine EvalDrives.settled line (.of_calm fun m m' l calm hm => ?_)
  let ns := Stmt.loopNames body continuing
  let w := o.cycling c ns
  let q := p.inside (.loop start) cs (o.scope' + 1) (k + 1) l
  have meets : ∀ {c' : Surroundings}, c'.names = (c.within ns).names → (c'.continues →
      FrameKind.continues (.loop start :: (p.frame :: p.below).map Frame.kind) = true) →
      q.Meets base w c' := by
    intro c' hn hb
    change (p.inside (.loop start) _ _ _ _).Meets base (o.block _ (c.within ns).names _) _
    rw [← hn]
    exact hmeets.inside _ (k + 1) l _ _ (fun _ => rfl) hb
  have looping := meets hn₁ fun _ => rfl
  have ending := meets hn₂ fun _ => rfl
  have shut : ∀ {m m'}, w.Related lax names m m' →
      o.Open lax names ns (m.popped (o.scope + 1)) m' := fun hn =>
    ⟨hn.leave hm.sound Overlay.below_entered, hn.above⟩
  refine yields_repeated (q := q) (o.Open lax names ns) (Eval.spoils_loopRound _ _ _ hsb hsp)
    (fun m m' l' calm hopen => ?_) calm (hm.opened ns) (leads_loop hmeets hm hc l)
  have inside := yields_loopBody (c := c) hmeets.lies.on rfl hends (hbody q rfl looping) (hpart q rfl ending)
    (fun hcont => hagain hcont q rfl ending) (hsp _) (hopen.enter hfresh hmeets.sight) l'
  refine Eval.yields_ofExec (Exec.Yields.bind (Exec.yields_inScope ?_)
    (fun flow m₁ calm keeps => Exec.yields_pure calm keeps) fun _ => Exec.spoils_pure _)
  rw [hopen.1.depth]
  refine inside.mono fun flow m₁ keeps => keeps.imp fun turns => ?_
  unfold Turns at turns
  cases ha : afterBody flow with
  | some ending =>
    rw [ha] at turns
    obtain ⟨calm, lands, _, j, l₁, ⟨n, hn, rfl⟩, hj, hleads⟩ := turns
    exact ⟨calm, lands, _, j, l₁, hn.leave hm.sound Overlay.below_entered, hj, hleads⟩
  | none =>
    rw [ha] at turns
    obtain ⟨calm, m₁', l₁, hm₁, hrestarts⟩ := turns
    exact ⟨_, hrestarts, calm, m₁', l₁, shut hm₁, rfl⟩

end

end Wgsl
