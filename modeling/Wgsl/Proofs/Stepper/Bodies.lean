import Wgsl.Proofs.Stepper.Jumps
import Wgsl.Proofs.Stepper.Looping

/-! # Commands of bodies

By recursion over the syntax: the commands of statements that can be stepped over do what the
statements do.

* `Stmt.Timely`: the names that a loop declares stand in it only behind their declarations.
* `drives_stmt`, `drives_stmts`: the commands of statements, wherever they stand.
-/

namespace Wgsl
set_option autoImplicit false

open Overlay (Knows)

/-! ## Names in loops -/

/-- Nothing that one part of a loop declares holds in another. -/
def LoopScopes.apart : LoopScopes := ⟨False, False⟩

/-- The names that a `loop` declares stand in its body, and in its `continuing` part, only behind their
declarations there. The part may use names of the body if no `continue` leads to it. -/
def Stmt.Timely (c : Surroundings) : Stmt → Prop
  | .loop _ body continuing => ∀ x ∈ loopNames body continuing, ¬Stmt.ListUnbound .apart x body ∧
    (Stmt.PartUnbound .apart x continuing → x ∈ declared body ∧
      Stmt.AllEverywhere Stmt.Lands (c.within (loopNames body continuing)).ending body)
  | _ => True

/-- The statement can be stepped over, and, unless nothing is asked of names that are missed, a loop
uses its names in time. -/
structure Stmt.Smooth (lax : Prop) (c : Surroundings) (st : Stmt) : Prop where
  steppable : st.Steppable c
  timely : lax ∨ st.Timely c

/-! ## Other surroundings -/

section

variable {P : Surroundings → Stmt → Prop} (hP : ∀ c c' st, c'.names = c.names → P c st →
  Stmt.Lands c' st → P c' st)

set_option linter.unusedSectionVars false

include hP

mutual

/-- A condition that minds no more than the names and where a jump may lead holds in other
surroundings with the same names if the jumps lead somewhere there. -/
theorem Stmt.everywhere_of_lands : ∀ (st : Stmt) {c c' : Surroundings}, c'.names = c.names →
    st.Everywhere P c → st.Everywhere Stmt.Lands c' → st.Everywhere P c'
  | .simple _, c, c', hc, h, hl => hP _ _ _ hc h hl
  | .ifElse _ cond body rest, c, c', hc, h, hl =>
    ⟨hP _ _ _ hc h.1 hl.1, Stmt.allEverywhere_of_lands body (by simp [Surroundings.within, hc]) h.2.1
      hl.2.1, ElseChain.everywhere_of_lands rest hc h.2.2 hl.2.2⟩
  | .forLoop _ init cond update body, c, c', hc, h, hl =>
    ⟨hP _ _ _ hc h.1 hl.1, Stmt.allEverywhere_of_lands body
      (by simp [Surroundings.within, Surroundings.looping, hc]) h.2 hl.2⟩
  | .whileLoop _ cond body, c, c', hc, h, hl =>
    ⟨hP _ _ _ hc h.1 hl.1, Stmt.allEverywhere_of_lands body
      (by simp [Surroundings.within, Surroundings.looping, hc]) h.2 hl.2⟩
  | .loop _ body continuing, c, c', hc, h, hl =>
    ⟨hP _ _ _ hc h.1 hl.1, Stmt.allEverywhere_of_lands body
      (by simp [Surroundings.within, Surroundings.looping, hc]) h.2.1 hl.2.1,
      Stmt.partEverywhere_of_lands continuing
        (by simp [Surroundings.within, Surroundings.ending, hc]) h.2.2 hl.2.2⟩
  | .switch _ selector clauses, c, c', hc, h, hl =>
    ⟨hP _ _ _ hc h.1 hl.1, SwitchClause.allEverywhere_of_lands clauses
      (by simpa [Surroundings.switching] using hc) h.2 hl.2⟩
  | .block _ body, c, c', hc, h, hl =>
    ⟨hP _ _ _ hc h.1 hl.1, Stmt.allEverywhere_of_lands body (by simp [Surroundings.within, hc]) h.2
      hl.2⟩
  | .return_ .., c, c', hc, h, hl => hP _ _ _ hc h hl
  | .break_ _, c, c', hc, h, hl => hP _ _ _ hc h hl
  | .breakIf .., c, c', hc, h, hl => hP _ _ _ hc h hl
  | .continue_ _, c, c', hc, h, hl => hP _ _ _ hc h hl
  | .discard _, c, c', hc, h, hl => hP _ _ _ hc h hl
  | .constAssert .., c, c', hc, h, hl => hP _ _ _ hc h hl

theorem Stmt.allEverywhere_of_lands : ∀ (body : List Stmt) {c c' : Surroundings},
    c'.names = c.names → Stmt.AllEverywhere P c body → Stmt.AllEverywhere Stmt.Lands c' body →
    Stmt.AllEverywhere P c' body
  | [], _, _, _, _, _ => trivial
  | st :: rest, _, _, hc, h, hl =>
    ⟨st.everywhere_of_lands hc h.1 hl.1, Stmt.allEverywhere_of_lands rest hc h.2 hl.2⟩

theorem Stmt.partEverywhere_of_lands : ∀ (body : Option (List Stmt)) {c c' : Surroundings},
    c'.names = c.names → Stmt.PartEverywhere P c body → Stmt.PartEverywhere Stmt.Lands c' body →
    Stmt.PartEverywhere P c' body
  | none, _, _, _, _, _ => trivial
  | some body, _, _, hc, h, hl => Stmt.allEverywhere_of_lands body hc h hl

theorem ElseChain.everywhere_of_lands : ∀ (rest : ElseChain) {c c' : Surroundings},
    c'.names = c.names → rest.Everywhere P c → rest.Everywhere Stmt.Lands c' →
    rest.Everywhere P c'
  | .none, _, _, _, _, _ => trivial
  | .else_ body, _, _, hc, h, hl =>
    Stmt.allEverywhere_of_lands body (by simp [Surroundings.within, hc]) h hl
  | .elseIf _ _ body rest, _, _, hc, h, hl =>
    ⟨Stmt.allEverywhere_of_lands body (by simp [Surroundings.within, hc]) h.1 hl.1,
      ElseChain.everywhere_of_lands rest hc h.2 hl.2⟩

theorem SwitchClause.allEverywhere_of_lands : ∀ (clauses : List SwitchClause)
    {c c' : Surroundings}, c'.names = c.names → SwitchClause.AllEverywhere P c clauses →
    SwitchClause.AllEverywhere Stmt.Lands c' clauses → SwitchClause.AllEverywhere P c' clauses
  | [], _, _, _, _, _ => trivial
  | .mk _ _ _ body :: rest, _, _, hc, h, hl =>
    ⟨Stmt.allEverywhere_of_lands body (by simp [Surroundings.within, hc]) h.1 hl.1,
      SwitchClause.allEverywhere_of_lands rest hc h.2 hl.2⟩

end

end

/-- Smooth statements are smooth where no `continue` leads to the end of the loop, if they have none. -/
theorem Stmt.Smooth.of_lands {lax : Prop} (c c' : Surroundings) (st : Stmt)
    (hc : c'.names = c.names) (h : st.Smooth lax c) (hl : st.Lands c') :
    st.Smooth lax c' := by
  obtain ⟨⟨-, unshadowing, straight⟩, timely⟩ := h
  obtain ⟨names, breaks, continues⟩ := c
  obtain ⟨names', breaks', continues'⟩ := c'
  subst hc
  refine ⟨⟨hl, ?_, ?_⟩, timely.imp id fun timely => ?_⟩
  · cases st <;> exact unshadowing
  · cases st <;> exact straight
  · cases st <;> exact timely

/-! ## Admission -/

/-- What may run beside a run with other scopes may run beside itself. -/
theorem Node.Admitted.solo {lax : Prop} {names names' calls : String → Prop} {n : Node}
    (h : n.Admitted (Overlay.correspondence lax names calls)) :
    n.Admitted (Correspondence.solo names') := by
  cases n with
  | expr e =>
    cases e with
    | unary k op e =>
      cases op with
      | addressOf => exact h
      | _ => trivial
    | _ => trivial
  | _ => trivial

/-- The selectors of clauses may run where their nodes may and their names may be read. -/
theorem SwitchClause.selectors_of_uses {C : Correspondence} {S : String → Prop}
    {clauses : List SwitchClause} (h : ∀ n ∈ SwitchClause.listNodes clauses, n.Admitted C)
    (hS : ∀ x, SwitchClause.Unbound .apart x clauses → S x) :
    ∀ d ∈ clauses, Expr.AllAdmitted C S d.selectors := by
  induction clauses with
  | nil => exact fun d hd => absurd hd List.not_mem_nil
  | cons d rest ih =>
    obtain ⟨line, selectors, isDefault, body⟩ := d
    rw [SwitchClause.listNodes, SwitchClause.nodes, List.forall_mem_append,
      List.forall_mem_append] at h
    have reads : ∀ {es : List Expr} {x}, .variable_ x ∈ Expr.listMentions es →
        ∃ e ∈ es, e.Uses x := by
      intro es x hx
      induction es with
      | nil => cases hx
      | cons e rest ih =>
        obtain hx | hx := List.mem_append.1 hx
        · exact ⟨e, .head _, hx⟩
        · obtain ⟨e', he, hx⟩ := ih hx
          exact ⟨e', .tail _ he, hx⟩
    refine List.forall_mem_cons.2 ⟨Expr.allAdmitted_of_uses selectors h.1.1 fun x hx => ?_, ?_⟩
    · exact hS x (Or.inl (reads hx))
    · exact ih h.2 fun x hx => hS x (Or.inr (Or.inr hx))

theorem Overlay.Declares.settled {o : Overlay} {n : String} (h : o.Declares n) (list : List String) :
    (o.settled list).Declares n := ⟨h.mate, h.may, h.sight⟩

theorem Spot.Meets.settled {p : Spot} {base : Spot} {o : Overlay} {c : Surroundings}
    (h : p.Meets base o c) (list : List String) : p.Meets base (o.settled list) c :=
  { lies := h.lies, scope := h.scope, sight := h.sight }

/-! ## Bodies -/

section

variable {lax : Prop} {s : Shader} {names names' calls : String → Prop} {base : Spot}
  {c : Surroundings} {body : List Stmt}

open Eval (stmts stmt continuingPart elseChain)

/-- A body runs in a frame of its own. -/
theorem drivesInside_stmts (o : Overlay) (hdeclared : ∀ n ∈ Stmt.declared body, c.names n)
    (hu : ∀ x, Stmt.ListUnbound .apart x body → Knows lax o o.scope x)
    (h : ∀ (w : Overlay) (q : Spot), q.Meets base w c → (∀ n ∈ Stmt.declared body, w.Declares n) →
      (∀ x, Stmt.ListUnbound .apart x body → Knows lax w w.scope x) →
      q.Holds 0 (Stmt.listCommands 0 body) → Drives lax base s names w (Stmt.declared body) c q 0
        (0 + (Stmt.listCommands 0 body).length) (stmts s (Eval.call s) w.scope body)) :
    DrivesInside lax base s names o c (Stmt.listCommands 0 body)
      fun scope => stmts s (Eval.call s) scope body := by
  intro q hq hmeets
  have drives := h _ q hmeets (fun n hn => Overlay.declares_block trivial (hdeclared n hn))
    (fun x hx => (hu x hx).inside) (hq ▸ Spot.Holds.whole q)
  rw [Nat.zero_add] at drives
  exact drives.forget

/-- A `loop` whose body and `continuing` part are driven by their commands. Names of the body are known
in the part behind a normal end; a `continue` leads there only if the part does without them. -/
theorem drives_loopStmt (hsolo : (Correspondence.solo names').Answers s (Eval.call s) (Eval.call s))
    {o : Overlay} {p : Spot} {k line : Nat} {continuing : Option (List Stmt)} (hmeets : p.Meets base o c)
    (hc : p.frame.commands[k]? = some (.loop
      (Stmt.listCommands 0 body ++ Stmt.continuingCommands continuing)
      (Stmt.listCommands 0 body).length))
    (here : (Stmt.loop line body continuing).Smooth lax c)
    (hs : Stmt.AllEverywhere (Stmt.Smooth lax) (c.within (Stmt.loopNames body continuing)).looping body)
    (hbody : ∀ n ∈ Stmt.listNodes body, n.Admitted (Overlay.correspondence lax names calls))
    (hpart : ∀ n ∈ Stmt.blockNodes continuing,
      n.Admitted (Overlay.correspondence lax names calls))
    (hu : ∀ x, (Stmt.loop line body continuing).Unbound .apart x → Knows lax o o.scope x)
    (bodies : ∀ {w : Overlay} {c' : Surroundings} {q : Spot}, q.Meets base w c' →
      Stmt.AllEverywhere (Stmt.Smooth lax) c' body →
      (∀ x, Stmt.ListUnbound .apart x body → Knows lax w w.scope x) →
      (∀ n ∈ Stmt.declared body, w.Declares n) → q.Holds 0 (Stmt.listCommands 0 body) →
      Drives lax base s names w (Stmt.declared body) c' q 0 (0 + (Stmt.listCommands 0 body).length)
        (stmts s (Eval.call s) w.scope body))
    (parts : ∀ {w : Overlay} {q : Spot} {k : Nat},
      q.Meets base w (c.within (Stmt.loopNames body continuing)).ending →
      (∀ x, Stmt.PartUnbound .apart x continuing → Knows lax w w.scope x) →
      (∀ n ∈ Stmt.declared (continuing.getD []), w.Declares n) →
      q.Holds k (Stmt.continuingCommands continuing) →
      Drives lax base s names w (Stmt.declared (continuing.getD []))
        (c.within (Stmt.loopNames body continuing)).ending q k
        (k + (Stmt.continuingCommands continuing).length)
        (continuingPart s (Eval.call s) w.scope continuing)) :
    Drives lax base s names o [] c p k (k + 1)
      (stmt s (Eval.call s) o.scope (.loop line body continuing)) := by
  let ns := Stmt.loopNames body continuing
  have declares : ∀ n ∈ ns, (o.cycling c ns).Declares n := fun n hn => Overlay.declares_cycling hn
  have spoils₁ : ∀ scope, (stmts s (Eval.call s) scope body).Spoils :=
    fun scope => Eval.spoils_stmts hsolo scope fun n hn => (hbody n hn).solo
  have spoils₂ : ∀ scope, (continuingPart s (Eval.call s) scope continuing).Spoils :=
    fun scope => Eval.spoils_continuingPart hsolo scope fun n hn => (hpart n hn).solo
  have inBody : ∀ x, Stmt.ListUnbound .apart x body →
      Knows lax (o.cycling c ns) (o.cycling c ns).scope x := by
    intro x hx
    obtain hlax | timely := here.timely
    · exact Or.inl hlax
    · exact (hu x (.inl hx)).cycling fun hn => (timely x hn).1 hx
  have inPart : ∀ x, Stmt.PartUnbound .apart x continuing → Knows lax o o.scope x :=
    fun x hx => hu x (.inr ⟨fun h => h.1, hx⟩)
  have afterBody : ∀ x, Stmt.PartUnbound .apart x continuing →
      Knows lax ((o.cycling c ns).settled (Stmt.declared body)) (o.scope + 1) x := by
    intro x hx
    obtain hlax | timely := here.timely
    · exact Or.inl hlax
    by_cases hn : x ∈ ns
    · exact Overlay.knows_settled ((timely x hn).2 hx).1
    · exact ((inPart x hx).cycling hn).settled _
  have run_body : ∀ {c' : Surroundings} (q : Spot), Stmt.AllEverywhere (Stmt.Smooth lax) c' body →
      q.frame.commands = Stmt.listCommands 0 body ++ Stmt.continuingCommands continuing →
      q.Meets base (o.cycling c ns) c' → Drives lax base s names (o.cycling c ns) (Stmt.declared body) c' q 0
        (Stmt.listCommands 0 body).length (stmts s (Eval.call s) (o.scope + 1) body) := by
    intro c' q hs hq hmeets
    have whole := hq ▸ Spot.Holds.whole q
    have drives := bodies hmeets hs inBody (fun n hn => declares n (List.mem_append_left _ hn))
      whole.left
    rwa [Nat.zero_add] at drives
  have run_part : ∀ {w : Overlay} (q : Spot), w.scope = o.scope + 1 →
      (∀ x, Stmt.PartUnbound .apart x continuing → Knows lax w w.scope x) →
      (∀ n ∈ ns, w.Declares n) →
      q.frame.commands = Stmt.listCommands 0 body ++ Stmt.continuingCommands continuing →
      q.Meets base w (c.within ns).ending → Drives lax base s names w (Stmt.declared (continuing.getD []))
        (c.within ns).ending q (Stmt.listCommands 0 body).length
        (Stmt.listCommands 0 body ++ Stmt.continuingCommands continuing).length
        (continuingPart s (Eval.call s) (o.scope + 1) continuing) := by
    intro w q hw hu hd hq hmeets
    have part := (hq ▸ Spot.Holds.whole q).right
    rw [Nat.zero_add] at part
    rw [List.length_append, ← hw]
    exact parts hmeets hu (fun n hn => hd n (List.mem_append_right _ hn)) part
  have ends : ¬(c.within ns).ending.continues := id
  have looping : (c.within ns).looping.names = (c.within ns).names := rfl
  have ending : (c.within ns).ending.names = (c.within ns).names := rfl
  by_cases stays : Stmt.AllEverywhere Stmt.Lands (c.within ns).ending body
  · -- no `continue` leads to the part
    have smooth : Stmt.AllEverywhere (Stmt.Smooth lax) (c.within ns).ending body :=
      Stmt.allEverywhere_of_lands Stmt.Smooth.of_lands body (ending.trans looping.symm) hs stays
    exact drives_loop hmeets hc here.steppable.unshadowing ending ending ends spoils₁ spoils₂
      (fun q => run_body q smooth)
      (fun q hq hm => run_part q rfl afterBody (fun n hn => (declares n hn).settled _) hq (hm.settled _))
      fun hcont => absurd hcont ends
  · have again : ∀ x, Stmt.PartUnbound .apart x continuing →
        Knows lax (o.cycling c ns) (o.scope + 1) x := by
      intro x hx
      obtain hlax | timely := here.timely
      · exact Or.inl hlax
      · exact (inPart x hx).cycling fun hn => stays ((timely x hn).2 hx).2
    exact drives_loop hmeets hc here.steppable.unshadowing looping ending ends spoils₁ spoils₂
      (fun q => run_body q hs)
      (fun q hq hm => run_part q rfl afterBody (fun n hn => (declares n hn).settled _) hq (hm.settled _))
      fun _ q => run_part q rfl again declares

variable (hcall : (Overlay.correspondence lax names calls).Answers s (Eval.call s) (Eval.call s))
  (hsolo : (Correspondence.solo names').Answers s (Eval.call s) (Eval.call s))

set_option linter.unusedSectionVars false

include hcall hsolo

mutual

theorem drives_stmt : ∀ (st : Stmt) {o : Overlay} {c : Surroundings} {p : Spot} {k : Nat}
    (position : Nat), p.Meets base o c → st.Everywhere (Stmt.Smooth lax) c →
    (∀ n ∈ st.nodes, n.Admitted (Overlay.correspondence lax names calls)) →
    (∀ x, st.Unbound .apart x → Knows lax o o.scope x) →
    (∀ n ∈ st.declares?, o.Declares n) → p.Holds k (st.commands position) →
    (position = k ∨ ¬st.IsIf) →
    Drives lax base s names o st.declares?.toList c p k (k + (st.commands position).length)
      (stmt s (Eval.call s) o.scope st)
  | .simple st, o, c, p, k, position, hmeets, hs, hn, hu, hd, hp, hif => by
    rw [Stmt.commands] at hp ⊢
    rw [Eval.stmt]
    exact drives_simple hcall hmeets hp.head hn hu hd
  | .return_ line value, o, c, p, k, position, hmeets, hs, hn, hu, hd, hp, hif => by
    rw [Stmt.commands] at hp ⊢
    exact drives_return hcall hmeets hp.head hn hu
  | .ifElse line cond body rest, o, c, p, k, position, hmeets, hs, hn, hu, hd, hp, hif => by
    obtain rfl := hif.resolve_right fun h => h trivial
    rw [Stmt.nodes, List.forall_mem_append, List.forall_mem_append] at hn
    obtain ⟨⟨hcond, hbody⟩, hrest⟩ := hn
    rw [Stmt.commands] at hp ⊢
    rw [Eval.stmt]
    have first := drivesInside_stmts o (fun n hn => Or.inr hn) (fun x hx => hu x (.inr (.inl hx)))
      fun w q hq hd hu hp => drives_stmts body 0 hq hs.2.1 hbody hu hd hp (Or.inl rfl)
    have chain := drives_elseChain rest hmeets hs.2.2 hrest (fun x hx => hu x (.inr (.inr hx)))
      hp.tail.tail.tail rfl
    have branch := evalDrives_branch hcall hcond (fun x hx => hu x (.inl hx)) hmeets hp
      (drives_block hmeets hp.tail.head first) chain
      (Eval.spoils_block hsolo o.scope fun n hn => (hbody n hn).solo)
      (Eval.spoils_elseChain hsolo o.scope fun n hn => (hrest n hn).solo)
    have length : position + 3 + rest.commandCount = position + (ElseChain.commands (position + 3)
        (position + 3 + rest.commandCount) rest).length.succ.succ.succ := by
      rw [rest.length_commands]
      omega
    rw [List.length_cons, List.length_cons, List.length_cons, ← length]
    exact branch.settled line
  | .forLoop line init cond update body, o, c, p, k, position, hmeets, hs, hn, hu, hd, hp, hif => by
    rw [Stmt.nodes, List.forall_mem_append, List.forall_mem_append, List.forall_mem_append] at hn
    obtain ⟨⟨⟨hinit, hcond⟩, hupdate⟩, hbody⟩ := hn
    rw [Stmt.commands] at hp ⊢
    refine drives_for hcall hmeets hp.head hinit (fun x hx => hu x (.inl hx)) hcond
      (fun x hi hx => hu x (.inr ⟨hi, .inl hx⟩)) hupdate
      (fun x hi hx => hu x (.inr ⟨hi, .inr (.inl hx)⟩))
      (fun scope => Eval.spoils_goesOn hsolo scope fun n hn => (hcond n hn).solo)
      (fun scope => Eval.spoils_header hsolo scope fun n hn => (hupdate n hn).solo)
      (fun scope => Eval.spoils_block hsolo scope fun n hn => (hbody n hn).solo)
      fun w hw => drivesInside_stmts w (fun n hn => Or.inr hn) (fun x hx => hw x ?_)
        fun w q hq hd hu hp => drives_stmts body 0 hq hs.2 hbody hu hd hp (Or.inl rfl)
    exact or_iff_not_imp_right.2 fun hi => hu x (.inr ⟨hi, .inr (.inr ⟨fun h => h.1, hx⟩)⟩)
  | .whileLoop line cond body, o, c, p, k, position, hmeets, hs, hn, hu, hd, hp, hif => by
    rw [Stmt.nodes, List.forall_mem_append] at hn
    obtain ⟨hcond, hbody⟩ := hn
    rw [Stmt.commands] at hp ⊢
    have inside := drivesInside_stmts (o.deepened fun _ => False) (fun n hn => Or.inr hn)
      (fun x hx => hu x (.inr hx))
      fun w q hq hd hu hp => drives_stmts body 0 hq hs.2 hbody hu hd hp (Or.inl rfl)
    have test : ∀ n ∈ Expr.countNodes (some cond), n.Admitted (Correspondence.solo names') :=
      fun n hn => (hcond n hn).solo
    exact drives_while hcall hmeets hp.head hcond (fun x hx => hu x (.inl hx))
      (Eval.spoils_goesOn hsolo o.scope test)
      (Eval.spoils_block hsolo o.scope fun n hn => (hbody n hn).solo) inside
  | .loop line body continuing, o, c, p, k, position, hmeets, hs, hn, hu, hd, hp, hif => by
    obtain ⟨here, hs₁, hs₂⟩ := hs
    rw [Stmt.nodes, List.forall_mem_append] at hn
    obtain ⟨hbody, hpart⟩ := hn
    rw [Stmt.commands] at hp ⊢
    have straight : ∀ body ∈ continuing, ∀ st ∈ body, ¬st.IsIf := by
      rintro body rfl
      exact here.steppable.straight
    exact drives_loopStmt hsolo hmeets hp.head here hs₁ hbody hpart hu
      (fun hq hs hu hd hp => drives_stmts body 0 hq hs hbody hu hd hp (Or.inl rfl))
      fun hq hu hd hp => drives_part continuing hq hs₂ hpart hu hd hp straight
  | .switch line e clauses, o, c, p, k, position, hmeets, hs, hn, hu, hd, hp, hif => by
    rw [Stmt.nodes, List.forall_mem_append] at hn
    obtain ⟨he, hclauses⟩ := hn
    rw [Stmt.commands] at hp ⊢
    exact drives_switch hcall hmeets hp.head he (fun x hx => hu x (.inl hx))
      (SwitchClause.selectors_of_uses hclauses fun x hx => hu x (.inr hx))
      (fun i => Eval.spoils_clauseAt hsolo o.scope i fun n hn => (hclauses n hn).solo)
      (drivesInside_clauses clauses hs.2 hclauses fun x hx => hu x (.inr hx))
  | .block line body, o, c, p, k, position, hmeets, hs, hn, hu, hd, hp, hif => by
    rw [Stmt.nodes] at hn
    rw [Stmt.commands] at hp ⊢
    rw [Eval.stmt]
    have inside := drivesInside_stmts o (fun n hn => Or.inr hn) hu fun w q hq hd hu hp =>
      drives_stmts body 0 hq hs.2 hn hu hd hp (Or.inl rfl)
    exact (drives_block hmeets hp.head inside).ofExec.settled line
  | .break_ line, o, c, p, k, position, hmeets, hs, hn, hu, hd, hp, hif => by
    have lands : Flow.Lands c .break_ := hs.steppable.lands
    rw [Stmt.commands] at hp ⊢
    rw [Eval.stmt]
    exact drives_pure hmeets hp.head rfl rfl lands
  | .breakIf line cond, o, c, p, k, position, hmeets, hs, hn, hu, hd, hp, hif => by
    rw [Stmt.commands] at hp ⊢
    exact drives_breakIf hcall hmeets hp.head hs.steppable.lands hn hu
  | .continue_ line, o, c, p, k, position, hmeets, hs, hn, hu, hd, hp, hif => by
    have lands : Flow.Lands c .continue_ := hs.steppable.lands
    rw [Stmt.commands] at hp ⊢
    rw [Eval.stmt]
    exact drives_pure hmeets hp.head rfl rfl lands
  | .discard line, o, c, p, k, position, hmeets, hs, hn, hu, hd, hp, hif => by
    rw [Stmt.commands] at hp ⊢
    exact drives_discard hmeets hp.head
  | .constAssert line cond, o, c, p, k, position, hmeets, hs, hn, hu, hd, hp, hif => by
    rw [Stmt.commands] at hp ⊢
    exact drives_constAssert hcall hmeets hp.head hn hu

theorem drives_stmts : ∀ (body : List Stmt) {o : Overlay} {c : Surroundings} {p : Spot} {k : Nat}
    (position : Nat), p.Meets base o c → Stmt.AllEverywhere (Stmt.Smooth lax) c body →
    (∀ n ∈ Stmt.listNodes body, n.Admitted (Overlay.correspondence lax names calls)) →
    (∀ x, Stmt.ListUnbound .apart x body → Knows lax o o.scope x) →
    (∀ n ∈ Stmt.declared body, o.Declares n) → p.Holds k (Stmt.listCommands position body) →
    (position = k ∨ ∀ st ∈ body, ¬st.IsIf) →
    Drives lax base s names o (Stmt.declared body) c p k
      (k + (Stmt.listCommands position body).length) (stmts s (Eval.call s) o.scope body)
  | [], o, c, p, k, position, hmeets, hs, hn, hu, hd, hp, hif => by
    rw [Stmt.listCommands, Eval.stmts]
    exact drives_nothing
  | st :: rest, o, c, p, k, position, hmeets, hs, hn, hu, hd, hp, hif => by
    rw [Stmt.listNodes, List.forall_mem_append] at hn
    rw [Stmt.listCommands] at hp ⊢
    have own : ∀ n ∈ st.declares?, o.Declares n := fun n hn =>
      hd n (List.mem_filterMap.2 ⟨st, List.mem_cons_self, hn⟩)
    have others : ∀ n ∈ Stmt.declared rest, o.Declares n := fun n hn => by
      obtain ⟨st', hst, hn⟩ := List.mem_filterMap.1 hn
      exact hd n (List.mem_filterMap.2 ⟨st', List.mem_cons_of_mem _ hst, hn⟩)
    -- behind the first statement the name that it declares is known
    have known : ∀ x, Stmt.ListUnbound .apart x rest →
        Knows lax (o.settled st.declares?.toList) o.scope x := by
      intro x hx
      by_cases hd : st.declares? = some x
      · exact Overlay.knows_settled (Option.mem_toList.2 hd)
      · exact (hu x (.inr ⟨hd, hx⟩)).settled _
    have first := drives_stmt st position hmeets hs.1 hn.1 (fun x hx => hu x (.inl hx)) own hp.left
      (hif.imp_right fun h => h st List.mem_cons_self)
    have second := drives_stmts rest (position + (st.commands position).length)
      (hmeets.settled st.declares?.toList) hs.2 hn.2 known (fun n hn => (others n hn).settled _)
      hp.right (hif.imp (congrArg (· + _)) fun h st' hst => h st' (List.mem_cons_of_mem _ hst))
    have names : Stmt.declared (st :: rest) = st.declares?.toList ++ Stmt.declared rest := by
      cases hd : st.declares? <;> simp [Stmt.declared, hd]
    rw [Eval.stmts, List.length_append, ← Nat.add_assoc, names]
    refine first.bind second rfl (fun flow hflow => ?_)
      (Eval.spoils_stmts hsolo o.scope fun n h => (hn.2 n h).solo)
    cases flow with
    | normal => exact absurd rfl hflow
    | _ => rfl

theorem drives_part : ∀ (part : Option (List Stmt)) {o : Overlay} {c : Surroundings} {p : Spot}
    {k : Nat}, p.Meets base o c → Stmt.PartEverywhere (Stmt.Smooth lax) c part →
    (∀ n ∈ Stmt.blockNodes part, n.Admitted (Overlay.correspondence lax names calls)) →
    (∀ x, Stmt.PartUnbound .apart x part → Knows lax o o.scope x) →
    (∀ n ∈ Stmt.declared (part.getD []), o.Declares n) →
    p.Holds k (Stmt.continuingCommands part) → (∀ body ∈ part, ∀ st ∈ body, ¬st.IsIf) →
    Drives lax base s names o (Stmt.declared (part.getD [])) c p k
      (k + (Stmt.continuingCommands part).length) (continuingPart s (Eval.call s) o.scope part)
  | none, o, c, p, k, hmeets, hs, hn, hu, hd, hp, hif => by
    rw [Stmt.continuingCommands, Eval.continuingPart]
    exact drives_nothing
  | some body, o, c, p, k, hmeets, hs, hn, hu, hd, hp, hif => by
    rw [Stmt.continuingCommands] at hp ⊢
    rw [Eval.continuingPart]
    exact drives_stmts body 0 hmeets hs hn hu hd hp (Or.inr (hif body rfl))

theorem drives_elseChain : ∀ (rest : ElseChain) {o : Overlay} {c : Surroundings} {p : Spot}
    {k finish : Nat}, p.Meets base o c → rest.Everywhere (Stmt.Smooth lax) c →
    (∀ n ∈ rest.nodes, n.Admitted (Overlay.correspondence lax names calls)) →
    (∀ x, rest.Unbound .apart x → Knows lax o o.scope x) →
    p.Holds k (ElseChain.commands k finish rest) → finish = k + rest.commandCount →
    EvalDrives lax base s names o [] c p k finish (elseChain s (Eval.call s) o.scope rest)
  | .none, o, c, p, k, finish, hmeets, hs, hn, hu, hp, hf => by
    subst hf
    rw [Eval.elseChain]
    exact drives_nothing.ofExec
  | .else_ body, o, c, p, k, finish, hmeets, hs, hn, hu, hp, hf => by
    subst hf
    rw [ElseChain.nodes] at hn
    rw [ElseChain.commands] at hp
    rw [Eval.elseChain]
    have inside := drivesInside_stmts o (fun n hn => Or.inr hn) hu fun w q hq hd hu hp =>
      drives_stmts body 0 hq hs hn hu hd hp (Or.inl rfl)
    exact (drives_block hmeets hp.head inside).ofExec
  | .elseIf line cond body rest, o, c, p, k, finish, hmeets, hs, hn, hu, hp, hf => by
    rw [ElseChain.nodes, List.forall_mem_append, List.forall_mem_append] at hn
    obtain ⟨⟨hcond, hbody⟩, hrest⟩ := hn
    rw [ElseChain.commands] at hp
    rw [Eval.elseChain]
    have first := drivesInside_stmts o (fun n hn => Or.inr hn) (fun x hx => hu x (.inr (.inl hx)))
      fun w q hq hd hu hp => drives_stmts body 0 hq hs.1 hbody hu hd hp (Or.inl rfl)
    have behind : finish = k + 3 + rest.commandCount := by
      rw [hf, ElseChain.commandCount, Nat.add_assoc]
    have chain := drives_elseChain rest hmeets hs.2 hrest (fun x hx => hu x (.inr (.inr hx)))
      hp.tail.tail.tail behind
    exact evalDrives_branch hcall hcond (fun x hx => hu x (.inl hx)) hmeets hp
      (drives_block hmeets hp.tail.head first) chain
      (Eval.spoils_block hsolo o.scope fun n hn => (hbody n hn).solo)
      (Eval.spoils_elseChain hsolo o.scope fun n hn => (hrest n hn).solo)

theorem drivesInside_clauses : ∀ (clauses : List SwitchClause) {o : Overlay} {c : Surroundings},
    SwitchClause.AllEverywhere (Stmt.Smooth lax) c clauses →
    (∀ n ∈ SwitchClause.listNodes clauses, n.Admitted (Overlay.correspondence lax names calls)) →
    (∀ x, SwitchClause.Unbound .apart x clauses → Knows lax o o.scope x) →
    ∀ (i : Nat) (d : SwitchClause), clauses[i]? = some d →
      DrivesInside lax base s names o (c.within (Stmt.declared d.body)) (Stmt.listCommands 0 d.body)
        fun scope => stmts s (Eval.call s) scope d.body
  | [], o, c, hs, hn, hu, i, d, hi => by
    cases hi
  | .mk line selectors isDefault body :: rest, o, c, hs, hn, hu, i, d, hi => by
    rw [SwitchClause.listNodes, SwitchClause.nodes, List.forall_mem_append,
      List.forall_mem_append] at hn
    obtain ⟨⟨-, hbody⟩, hrest⟩ := hn
    cases i with
    | zero =>
      cases hi
      exact drivesInside_stmts o (fun n hn => Or.inr hn) (fun x hx => hu x (.inr (.inl hx)))
        fun w q hq hd hu hp => drives_stmts body 0 hq hs.1 hbody hu hd hp (Or.inl rfl)
    | succ i =>
      exact drivesInside_clauses rest hs.2 hrest (fun x hx => hu x (.inr (.inr hx))) i d hi

end

end

end Wgsl
