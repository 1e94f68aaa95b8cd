import Wgsl.Proofs.Stepper.Driving

/-! # Commands of blocks, branches and clauses

Commands that open frames of their own, or decide what is run next.

* `drives_block`: a block runs in a frame of its own.
* `evalDrives_branch`: an `if`; where its condition fails and another branch follows, stepping parts
  from running.
* `drives_switch`: the clause that is entered is the one that is run.
-/

namespace Wgsl
set_option autoImplicit false

/-- A scope that is opened and closed again leaves nothing behind. -/
theorem Machine.popped_pushed {m : Machine} (h : 0 < m.scopes.depth) {parent : ScopeId} :
    (m.pushed parent).popped m.scopes.depth = m := by
  rw [popped, pushed, ScopeArena.pop_push _ h]

/-- Closing a scope closes those that were opened after it. -/
theorem Machine.popped_popped {m : Machine} {id later : ScopeId} (hid : 0 < id) (hle : id ≤ later) :
    (m.popped later).popped id = m.popped id := by
  unfold popped
  rw [ScopeArena.pop_pop _ hid hle]

open Eval (settled condition)
open Overlay (Knows)

section

variable {lax : Prop} {s : Shader} {names calls : String → Prop} {base : Spot} {o : Overlay}
  {c c' : Surroundings} {p q : Spot} {k target : Nat} {R R' : Machine → Machine → Prop}
  {t : Session} {flow : Flow} {m m₁ m₂ m' : Machine} {kind : FrameKind} {cs : List Command}
  {scope : ScopeId} {line : Nat} {list : List String}

/-! ## Frames inside frames -/

/-- The overlay in a block that both runs have entered. -/
def Overlay.inside (o : Overlay) (c : Surroundings) : Overlay :=
  o.block (fun _ => True) c.names (o.stale o.scope)

/-- What is known outside a block is known inside. -/
theorem Overlay.Knows.inside {name : String} (h : Knows lax o o.scope name) :
    Knows lax (o.inside c) (o.inside c).scope name := Overlay.knows_entered h

/-- The innermost frame runs in the scope that was opened for it. -/
theorem Spot.Meets.inside (h : p.Meets base o c) (cs : List Command)
    (k line : Nat) (may stale : String → Prop)
    (hb : c'.breaks → FrameKind.breaks (kind :: (p.frame :: p.below).map Frame.kind) = true)
    (hc : c'.continues → FrameKind.continues (kind :: (p.frame :: p.below).map Frame.kind) = true) :
    (p.inside kind cs (o.scope' + 1) k line).Meets base (o.block may c'.names stale) c' where
  lies := h.lies.inside cs _ k line hb hc
  scope := rfl
  sight n hn := by
    change (o.block may c'.names stale).sight (o.scope + 1) n at hn
    rwa [Overlay.block, Overlay.entered_sight] at hn

/-- The frame of a block is opened. -/
theorem leads_block (hmeets : p.Meets base o c) (hm : o.Related lax names m m')
    (hc : p.frame.commands[k]? = some (.block cs)) (line : Nat) :
    Session.Leads base s (p.standing m' k line)
      ((p.inside .block cs (o.scope' + 1) (k + 1) line).standing (m'.pushed o.scope') 0 line) := by
  rw [← hm.depth', ← hmeets.scope]
  exact Spot.leads_block hmeets.lies.on hc

/-- What is declared may be forgotten. -/
theorem Drives.forget {x : Exec Flow} (h : Drives lax base s names o list c p k target x) :
    Drives lax base s names o [] c p k target x := by
  refine fun m m' line hm => (h m m' line hm).mono fun flow m₁ keeps => keeps.imp fun arrives => ?_
  obtain ⟨calm, lands, m₁', j, l, hm₁, hj, hleads⟩ := arrives
  rw [Overlay.behind_nil]
  refine ⟨calm, lands, m₁', j, l, ?_, hj, hleads⟩
  cases flow with
  | normal => exact hm₁.forget
  | _ => exact hm₁

/-- The commands of a frame that is opened there do what the computation does in a scope of its
own. -/
def DrivesInside (lax : Prop) (base : Spot) (s : Shader) (names : String → Prop) (o : Overlay)
    (c : Surroundings) (cs : List Command) (x : ScopeId → Exec Flow) : Prop :=
  ∀ q : Spot, q.frame.commands = cs → q.Meets base (o.inside c) c →
    Drives lax base s names (o.inside c) [] c q 0 cs.length (x (o.scope + 1))

/-- The end of a block is the end of its frame. -/
theorem Arrives.close_block
    (h : Arrives base s R' c' (p.inside .block cs scope k line) cs.length t flow m₁) (hp : p.On base)
    (hR : ∀ m', R' m₁ m' → R m₂ (m'.popped scope)) (hl : flow.Lands c' → flow.Lands c)
    (calm : m₂.discarded = m₁.discarded) : Arrives base s R c p k t flow m₂ := by
  obtain ⟨quiet, lands, m', j, l, hm', hj, ends⟩ := h
  by_cases hn : flow = .normal
  · subst hn
    cases hj rfl
    exact arrives_normal (calm.trans quiet) (hR m' hm')
      (ends.trans (Spot.leads_close hp (Or.inl rfl)))
  · exact ⟨calm.trans quiet, hl lands, _, k, line, hR m' hm', fun e => absurd e hn,
      Spot.ends_block hn ends⟩

/-- A block runs in scopes of its own. -/
theorem drives_block (hmeets : p.Meets base o c) {ns : List String} {x : ScopeId → Exec Flow}
    (hc : p.frame.commands[k]? = some (.block cs))
    (h : DrivesInside lax base s names o (c.within ns) cs x) :
    Drives lax base s names o [] c p k (k + 1) (Exec.inScope o.scope x) := by
  intro m m' line hm
  refine Exec.yields_inScope ?_
  rw [hm.depth]
  have meets : (p.inside .block cs (o.scope' + 1) (k + 1) line).Meets base (o.inside (c.within ns))
      (c.within ns) := by
    exact hmeets.inside cs (k + 1) line _ _ hmeets.lies.breaks hmeets.lies.continues
  have opened := leads_block (s := s) hmeets hm hc line
  refine (h _ rfl meets _ _ line (hm.block _ fun n hn => Or.inl (hmeets.sight n hn))).mono
    fun flow m₁ keeps => (keeps.head opened).imp fun arrives => ?_
  have arrives := arrives.head opened
  rw [Overlay.behind_nil] at arrives ⊢
  refine arrives.close_block hmeets.lies.on (fun m₁' hm₁ => ?_) (fun hl => ?_) rfl
  · exact hm₁.leave hm.sound Overlay.below_entered
  · cases flow <;> exact hl

/-! ## Conditions -/

/-- What follows the commands where a normal end goes on. -/
theorem Arrives.onward (h : Arrives base s R c p k t flow m)
    (hon : ∀ m' line, Session.Leads base s (p.standing m' k line) (p.standing m' target line)) :
    Arrives base s R c p target t flow m := by
  obtain ⟨calm, lands, m', j, l, hm', hj, hleads⟩ := h
  by_cases hn : flow = .normal
  · subst hn
    cases hj rfl
    exact arrives_normal calm hm' (hleads.trans (hon m' l))
  · exact ⟨calm, lands, m', j, l, hm', fun e => absurd e hn, hleads⟩

variable (hcall : (Overlay.correspondence lax names calls).Answers s (Eval.call s) (Eval.call s))
  {e : Expr} (he : ∀ n ∈ e.nodes, n.Admitted (Overlay.correspondence lax names calls))
  (hu : ∀ x, e.Uses x → Knows lax o o.scope x)

include hcall he hu

/-- Both runs find the same condition. -/
theorem evalSim_test : (Overlay.correspondence lax names calls).EvalSim True o o Eq
    (condition s (Eval.call s) o.scope e) (condition s (Eval.call s) o.scope' e) :=
  Eval.evalSim_condition (w := o) (Overlay.lawful lax names calls) hcall (fun _ h => h)
    (e.admitted_of_uses he hu)

/-- A condition decides between two parts, the first of which jumps over the second. A condition that
fails is taken for one that does not hold; a run has neither part then, so stepping parts from it
unless there is no second part. -/
theorem evalDrives_branch (hmeets : p.Meets base o c) {x : Exec Flow} {y : Eval Flow}
    {rest : List Command}
    (hc : p.Holds k (.branch line e (k + 3) :: .block cs :: .jump target :: rest))
    (hx : Drives lax base s names o [] c p (k + 1) (k + 2) x)
    (hy : EvalDrives lax base s names o [] c p (k + 3) target y)
    (hsx : Exec.Spoils (Eval.ofExec x).run) (hsy : Exec.Spoils y.run) :
    EvalDrives lax base s names o [] c p k target
      (condition s (Eval.call s) o.scope e >>= fun b => if b then Eval.ofExec x else y) := by
  intro m m' l hm
  have test := yields_test (f := fun b => if b then .next else .jump (k + 3)) hmeets hc.head rfl l
    (bind_congr fun b => by cases b <;> rfl) (evalSim_test hcall he hu) hm
  refine (test.imp (fun b m₁ keeps => keeps) fun err m₁ hlax keeps => ?_).bind
    (fun b m₁ calm keeps => ?_) fun b => ?_
  · obtain departs | ⟨⟨n, hrun, calm⟩, asks⟩ := keeps
    · exact Or.inl departs
    by_cases htarget : target = k + 3
    · subst htarget
      obtain ⟨quiet, m₁', hm₁, performs⟩ := asks
      rw [Overlay.settled_nil]
      exact Or.inr ⟨quiet, m₁', line, hm₁, performs.leads rfl⟩
    · refine Or.inl ⟨hlax, .falters .refl (hmeets.lies.on.standing hc.head m' l) ?_⟩
      rw [← hmeets.scope] at hrun
      exact ⟨_, _, line, e, k + 3, target, err, n, rfl, hc.head, hc.tail.tail.head, htarget, hrun, calm⟩
  · obtain departs | ⟨quiet, m₁', hm₁, performs⟩ := keeps
    · refine Eval.yields_of_all departs.1 (fun _ _ => Or.inl departs) fun _ _ => Or.inl departs
    cases b with
    | true =>
      have next := performs.leads rfl
      refine (hx.ofExec m₁ m₁' line hm₁).imp (fun flow m₂ keeps => ?_) fun err m₂ _ keeps => ?_
      · refine (keeps.head next).imp fun arrives => (arrives.head next).onward fun m' l => ?_
        exact Spot.leads_jump hmeets.lies.on hc.tail.tail.head
      · refine (keeps.head next).imp fun fails => ?_
        obtain ⟨quiet, m₂', l₂, hm₂, hleads⟩ := fails.head next
        exact ⟨quiet, m₂', l₂, hm₂, hleads.trans (Spot.leads_jump hmeets.lies.on hc.tail.tail.head)⟩
    | false =>
      have jump := performs.leads rfl
      exact (hy m₁ m₁' line hm₁).imp
        (fun flow m₂ keeps => (keeps.head jump).imp fun arrives => arrives.head jump)
        fun err m₂ _ keeps => (keeps.head jump).imp fun fails => fails.head jump
  · cases b with
    | true => exact hsx
    | false => exact hsy

end

/-! ## Clauses -/

namespace SwitchClause

/-- The commands of the clause at a position. -/
def commandsAt (clauses : List SwitchClause) (i : Nat) : List Command :=
  clauses[i]?.elim [] fun c => Stmt.listCommands 0 c.body

variable {s : Shader} {call : Caller} {scope : ScopeId} {clauses : List SwitchClause} {i : Nat}

theorem clauseAt_eq {c : SwitchClause} (h : clauses[i]? = some c) :
    Eval.clauseAt s call scope clauses i =
      Exec.inScope scope fun scope => Eval.stmts s call scope c.body := by
  induction clauses generalizing i with
  | nil => cases h
  | cons d rest ih =>
    obtain ⟨line, selectors, isDefault, body⟩ := d
    cases i with
    | zero =>
      cases h
      rw [Eval.clauseAt]
      rfl
    | succ i =>
      rw [Eval.clauseAt]
      exact ih h

theorem clauseAt_none (h : clauses[i]? = none) :
    Eval.clauseAt s call scope clauses i = pure .normal := by
  induction clauses generalizing i with
  | nil => rw [Eval.clauseAt]
  | cons d rest ih =>
    cases i with
    | zero => cases h
    | succ i =>
      rw [Eval.clauseAt]
      exact ih h

theorem listCommands_cons (c : SwitchClause) (rest : List SwitchClause) :
    listCommands (c :: rest) =
      .mk c.selectors c.isDefault (Stmt.listCommands 0 c.body) :: listCommands rest := by
  obtain ⟨line, selectors, isDefault, body⟩ := c
  rw [listCommands]
  rfl

/-- The clause that is entered is the one that is run. -/
theorem selectedCommands?_eq (v : Value) (clauses : List SwitchClause) :
    Eval.selectedCommands? s scope v (listCommands clauses) =
      Option.map (commandsAt clauses) <$> Eval.selected? s (Eval.call s) scope v clauses := by
  induction clauses with
  | nil =>
    rw [listCommands, Eval.selectedCommands?, Eval.selected?]
    rfl
  | cons c rest ih =>
    rw [listCommands_cons, Eval.selectedCommands?, Eval.selected?, map_bind]
    refine bind_congr fun holds => ?_
    cases holds with
    | true => rfl
    | false =>
      rw [if_neg Bool.false_ne_true, if_neg Bool.false_ne_true, ih, map_bind, map_eq_pure_bind]
      refine bind_congr fun found => ?_
      cases found <;> rfl

theorem find?_default (clauses : List SwitchClause) :
    ((listCommands clauses).find? ClauseCommands.isDefault).map ClauseCommands.commands =
      (clauses.findIdx? isDefault).map (commandsAt clauses) := by
  induction clauses with
  | nil => rfl
  | cons c rest ih =>
    rw [listCommands_cons, List.find?_cons, List.findIdx?_cons]
    change Option.map _ (match c.isDefault with
      | true => some _
      | false => (listCommands rest).find? ClauseCommands.isDefault) = _
    cases c.isDefault with
    | true => rfl
    | false =>
      dsimp only
      rw [ih, if_neg Bool.false_ne_true, Option.map_map]
      rfl

/-- The command of a `switch` enters the clause that its statement runs. -/
theorem command_switch (config : Config) (line : Nat) (e : Expr) (clauses : List SwitchClause) :
    Eval.command s config scope (.switch line e (listCommands clauses)) =
      (Eval.chosenClause? s (Eval.call s) scope e clauses >>= fun i? =>
        pure (i?.elim .next fun i => .enter (commandsAt clauses i))) := by
  rw [Eval.command, Eval.chosenClause?, bind_assoc]
  refine bind_congr fun v => ?_
  rw [selectedCommands?_eq, bind_map_left, bind_assoc]
  refine bind_congr fun found => ?_
  have default := find?_default clauses
  cases found with
  | some i => rfl
  | none =>
    cases hd : (listCommands clauses).find? ClauseCommands.isDefault with
    | some d =>
      rw [hd] at default
      obtain ⟨i, hi, hcommands⟩ := Option.map_eq_some_iff.1 default.symm
      rw [hi]
      change pure (Move.enter d.commands) = pure (Move.enter (commandsAt clauses i))
      rw [hcommands]
    | none =>
      rw [hd] at default
      rw [Option.map_eq_none_iff.1 default.symm]
      rfl

end SwitchClause

section

variable {lax : Prop} {s : Shader} {names calls : String → Prop} {base : Spot} {o : Overlay}
  {c c' : Surroundings} {p q : Spot} {k target : Nat} {R R' : Machine → Machine → Prop}
  {t : Session} {flow : Flow} {m m₁ m₂ m' : Machine} {cs : List Command} {scope : ScopeId}
  {line : Nat}

/-- How a `switch` ends after its clause. -/
def Flow.afterClause : Flow → Flow
  | .break_ => .normal
  | flow => flow

/-- A clause is closed at its end and by a `break`. -/
theorem Arrives.close_clause
    (h : Arrives base s R' c' (p.inside .switch cs scope k line) cs.length t flow m₁) (hp : p.On base)
    (hR : ∀ m', R' m₁ m' → R m₂ (m'.popped scope))
    (hl : flow ≠ .break_ → flow.Lands c' → flow.Lands c) (calm : m₂.discarded = m₁.discarded) :
    Arrives base s R c p k t flow.afterClause m₂ := by
  obtain ⟨quiet, lands, m', j, l, hm', hj, hleads⟩ := h
  by_cases hb : flow = .break_
  · subst hb
    exact arrives_normal (calm.trans quiet) (hR m' hm') hleads
  have same : flow.afterClause = flow := by
    cases flow <;> first | rfl | exact absurd rfl hb
  rw [same]
  by_cases hn : flow = .normal
  · subst hn
    cases hj rfl
    exact arrives_normal (calm.trans quiet) (hR m' hm')
      (hleads.trans (Spot.leads_close hp (Or.inr rfl)))
  · exact ⟨calm.trans quiet, hl hb lands, _, k, line, hR m' hm', fun e => absurd e hn,
      Spot.ends_switch hn hb hleads⟩

/-- The clause that has been chosen. -/
theorem yields_clause (hmeets : p.Meets base o c) {clauses : List SwitchClause} {i : Nat} {l : Nat}
    (hm : o.Related lax names m m') (calm : m.discarded = false)
    (hentered : Session.Leads base s t
      ((p.inside .switch (SwitchClause.commandsAt clauses i) (o.scope' + 1) k l).standing
        (m'.pushed o.scope') 0 l))
    (h : ∀ d : SwitchClause, clauses[i]? = some d →
      DrivesInside lax base s names o (c.switching.within (Stmt.declared d.body))
        (Stmt.listCommands 0 d.body) fun scope => Eval.stmts s (Eval.call s) scope d.body) :
    (Eval.clauseAt s (Eval.call s) o.scope clauses i).Yields lax m fun flow m₁ =>
      t.Keeps lax base s (Arrives base s (o.Related lax names) c p k t flow.afterClause m₁) := by
  cases hd : clauses[i]? with
  | none =>
    rw [SwitchClause.clauseAt_none hd]
    refine Exec.yields_pure (fun _ => calm) (Or.inr ?_)
    rw [SwitchClause.commandsAt, hd] at hentered
    refine arrives_normal calm ?_ (hentered.trans (Spot.leads_close hmeets.lies.on (Or.inr rfl)))
    rw [← hm.depth', Machine.popped_pushed (hm.depth' ▸ Nat.succ_pos _)]
    exact hm
  | some d =>
    rw [SwitchClause.clauseAt_eq hd]
    refine Exec.yields_inScope ?_
    rw [hm.depth]
    rw [SwitchClause.commandsAt, hd] at hentered
    have meets : (p.inside .switch (Stmt.listCommands 0 d.body) (o.scope' + 1) k l).Meets base
        (o.inside (c.switching.within (Stmt.declared d.body)))
        (c.switching.within (Stmt.declared d.body)) := by
      exact hmeets.inside _ k l _ _ (fun _ => rfl) hmeets.lies.continues
    refine (h d hd _ rfl meets _ _ l (hm.block _ fun n hn => Or.inl (hmeets.sight n hn))).mono
      fun flow m₂ keeps => (keeps.head hentered).imp fun arrives => ?_
    have arrives := arrives.head hentered
    rw [Overlay.behind_nil] at arrives
    refine arrives.close_clause hmeets.lies.on (fun m₂' hm₂ => ?_) (fun hb hl => ?_) rfl
    · exact hm₂.leave hm.sound Overlay.below_entered
    · cases flow <;> first | exact hl | exact absurd rfl hb

variable (hcall : (Overlay.correspondence lax names calls).Answers s (Eval.call s) (Eval.call s))

include hcall

/-- A `switch` enters the clause that is run, if there is one. -/
theorem drives_switch (hmeets : p.Meets base o c) {e : Expr} {clauses : List SwitchClause}
    (hc : p.frame.commands[k]? = some (.switch line e (SwitchClause.listCommands clauses)))
    (he : ∀ n ∈ e.nodes, n.Admitted (Overlay.correspondence lax names calls))
    (hu : ∀ x, e.Uses x → Knows lax o o.scope x)
    (hclauses : ∀ d ∈ clauses, Expr.AllAdmitted (Overlay.correspondence lax names calls)
      (Knows lax o o.scope) d.selectors)
    (hs : ∀ i, (Eval.clauseAt s (Eval.call s) o.scope clauses i).Spoils)
    (h : ∀ (i : Nat) (d : SwitchClause), clauses[i]? = some d →
      DrivesInside lax base s names o (c.switching.within (Stmt.declared d.body))
        (Stmt.listCommands 0 d.body) fun scope => Eval.stmts s (Eval.call s) scope d.body) :
    Drives lax base s names o [] c p k (k + 1)
      (Eval.stmt s (Eval.call s) o.scope (.switch line e clauses)) := by
  rw [Eval.stmt]
  refine EvalDrives.settled line fun m m' l hm => ?_
  rw [Overlay.settled_nil]
  have sim := Eval.evalSim_chosenClause? (p := True) (w := o) (Overlay.lawful lax names calls) hcall
    (fun _ h => h) (e.admitted_of_uses he hu) hclauses
  refine (yields_command hmeets hc rfl l (SwitchClause.command_switch _ _ _ _) sim hm).bind
    (fun i? m₁ calm keeps => ?_) fun i? => ?_
  · obtain departs | ⟨_, rfl, asks⟩ := keeps
    · exact Eval.yields_of_all departs.1 (fun _ _ => Or.inl departs) fun _ _ => Or.inl departs
    cases i? with
    | none =>
      refine Eval.yields_pure (fun _ => asks.1) (Or.inr ?_)
      rw [Overlay.behind_nil]
      have lands : Flow.Lands c .normal := trivial
      exact asks.arrives hmeets.lies lands rfl
    | some i =>
      obtain ⟨quiet, m₁', hm₁, performs⟩ := asks
      have entered : Session.Leads base s (p.standing m' k l)
          ((p.inside .switch (SwitchClause.commandsAt clauses i) (o.scope' + 1) (k + 1) line).standing
            (m₁'.pushed o.scope') 0 line) := by
        refine performs.leads ?_
        rw [← hm₁.depth', ← hmeets.scope]
        rfl
      have clause := yields_clause hmeets hm₁ quiet entered (h i)
      refine (Eval.yields_ofExec clause).bind (fun flow m₂ calm keeps => ?_) fun flow => ?_
      · cases flow <;>
          exact Eval.yields_pure calm (keeps.imp fun arrives => Overlay.behind_nil _ ▸ arrives)
      · cases flow <;> exact Eval.spoils_pure _
  · cases i? with
    | none => exact Eval.spoils_pure _
    | some i =>
      refine Eval.spoils_bind (Eval.spoils_ofExec (hs i)) fun flow => ?_
      cases flow <;> exact Eval.spoils_pure _

end

end Wgsl
