import Wgsl.Proofs.Machine.Ending
import Wgsl.Proofs.Machine.Surroundings
import Wgsl.Proofs.Scope.Lookup
import Wgsl.Proofs.Stepper.Steps

/-! # Stepping over calls

What a session does when its calls are stepped over, one command or one end of a frame at a time.

* `Session.Leads`: stepping over leads from one session to another.
* `Session.Departs`: the ways in which stepping parts from running.
* `Spot`: where the commands of a list are run, the innermost frame of a session.
* `Session.Ends`: stepping comes to the end of a statement.
* `Session.Keeps`: the way out for whatever is said of stepping.
* `Spot.performs_move`, `Spot.leads_error`, `Spot.leads_discarded`: a command is run.
-/

namespace Wgsl
set_option autoImplicit false

/-! ## Ends of statements and frames -/

/-- What the command of a statement asks for that ends so. -/
def Flow.move : Flow → Move
  | .normal => .next
  | .break_ => .break_
  | .continue_ => .continue_
  | .return_ value => .return_ value
  | .discard => .endInvocation

/-- A statement that ends so has something to break out of or to go on with. -/
def Flow.Lands (c : Surroundings) : Flow → Prop
  | .break_ => c.breaks
  | .continue_ => c.continues
  | _ => True

/-- There is a loop or a clause to break out of. -/
def FrameKind.breaks : List FrameKind → Bool
  | [] => true
  | .function :: _ => false
  | .block :: rest => breaks rest
  | .loop _ :: _ | .switch :: _ => true

/-- There is a loop to go on with. -/
def FrameKind.continues : List FrameKind → Bool
  | [] => true
  | .function :: _ => false
  | .block :: rest | .switch :: rest => continues rest
  | .loop _ :: _ => true

namespace Session

/-- What the end of a statement makes of the frames. A `return` leaves them to the end of the call. -/
def flowed (flow : Flow) (t : Session) : Session :=
  match flow with
  | .normal => t
  | .break_ =>
    { t.withScopes (leave t.machine.scopes t.frames).1 with
      frames := (leave t.machine.scopes t.frames).2.1 }
  | .continue_ =>
    { t.withScopes (restart t.machine.scopes t.frames).1 with
      frames := (restart t.machine.scopes t.frames).2.1 }
  | .return_ _ => t
  | .discard => t.endInvocation

theorem leave_found (scopes : ScopeArena Slot) (frames : List Frame) :
    (leave scopes frames).2.2 = FrameKind.breaks (frames.map Frame.kind) := by
  induction frames generalizing scopes with
  | nil => rfl
  | cons f rest ih =>
    rw [leave, List.map_cons]
    cases f.kind with
    | function => rfl
    | block => exact ih _
    | loop target => rfl
    | switch => rfl

theorem restart_found (scopes : ScopeArena Slot) (frames : List Frame) :
    (restart scopes frames).2.2 = FrameKind.continues (frames.map Frame.kind) := by
  induction frames generalizing scopes with
  | nil => rfl
  | cons f rest ih =>
    rw [restart, List.map_cons]
    cases f.kind with
    | function => rfl
    | block => exact ih _
    | loop target => rfl
    | switch => exact ih _

/-- Frames of one invocation: that of its function, and blocks, loops and clauses inside it. -/
inductive Invoked (g : Function) (scope : ScopeId) : List Frame → Prop
  | entry {f : Frame} : f.kind = .function → f.function = some g → f.scope = scope →
    Invoked g scope [f]
  | inner {f : Frame} {rest : List Frame} : f.kind ≠ .function → Invoked g scope rest →
    Invoked g scope (f :: rest)

end Session

namespace ScopeArena

variable {α : Type} (a : ScopeArena α) {id later : ScopeId}

theorem pop_zero : a.pop 0 = a := if_neg fun h => Nat.lt_irrefl 0 h.1

/-- Closing a scope closes those that were opened after it. -/
theorem pop_pop (hid : 0 < id) (hle : id ≤ later) : (a.pop later).pop id = a.pop id := by
  by_cases hlater : later < a.depth
  · have first : a.pop later = ⟨a.scopes.take later⟩ :=
      if_pos ⟨Nat.lt_of_lt_of_le hid hle, hlater⟩
    have depth : (a.pop later).depth = later := depth_pop (Nat.lt_of_lt_of_le hid hle) hlater
    obtain rfl | hlt := Nat.eq_or_lt_of_le hle
    · exact if_neg fun h => Nat.lt_irrefl id (Nat.lt_of_lt_of_eq h.2 depth)
    · rw [show (a.pop later).pop id = ⟨(a.pop later).scopes.take id⟩ from
          if_pos ⟨hid, Nat.lt_of_lt_of_eq hlt depth.symm⟩, first,
        show a.pop id = ⟨a.scopes.take id⟩ from if_pos ⟨hid, Nat.lt_trans hlt hlater⟩]
      simp only [Array.take_eq_extract, Array.extract_extract, Nat.zero_add, mk.injEq]
      congr 1
      omega
  · rw [show a.pop later = a from if_neg fun h => hlater h.2]

/-- A scope that is opened and closed again leaves nothing behind. -/
theorem pop_push (h : 0 < a.depth) (parent : ScopeId) : (a.push parent).1.pop a.depth = a := by
  have last : a.depth < (a.push parent).1.depth := Nat.lt_of_lt_of_eq (Nat.lt_succ_self _)
    depth_push.symm
  rw [show (a.push parent).1.pop a.depth = ⟨(a.push parent).1.scopes.take a.depth⟩ from
    if_pos ⟨h, last⟩]
  simp only [push, depth, Array.extract_push_of_le (Nat.le_refl _), Array.extract_size]

theorem pop_self : (a.pop id).pop id = a.pop id := by
  obtain rfl | hid := Nat.eq_zero_or_pos id
  · rw [pop_zero, pop_zero]
  · exact a.pop_pop hid (Nat.le_refl _)

end ScopeArena

/-! ## Where commands are run -/

namespace Frame

/-- The frame at a position of its commands. -/
def placed (f : Frame) (k line : Nat) : Frame := { f with cursor := k, line, results := [] }

/-- A frame that is opened inside another. -/
def child (f : Frame) (kind : FrameKind) (commands : List Command) (scope : ScopeId) (line : Nat) :
    Frame where
  kind := kind
  name := f.name
  function := f.function
  commands := commands
  scope := scope
  line := line

end Frame

/-- Where the commands of a list are run: a session, its innermost frame and those below. -/
structure Spot where
  session : Session
  frame : Frame
  below : List Frame

namespace Spot

/-- The session at a position of the commands. -/
def standing (p : Spot) (m : Machine) (k line : Nat) : Session :=
  { p.session with machine := m, frames := p.frame.placed k line :: p.below }

/-- Inside a frame that was opened there. -/
def inside (p : Spot) (kind : FrameKind) (commands : List Command) (scope : ScopeId)
    (k line : Nat) : Spot where
  session := p.session
  frame := p.frame.child kind commands scope line
  below := p.frame.placed k line :: p.below

/-- The frames of the spot are opened inside the frame of another. -/
def Within (p base : Spot) : Prop :=
  ∃ inner j line, p.below = inner ++ base.frame.placed j line :: base.below

/-- The spot is the other one, or its frames are opened inside that. -/
def On (p base : Spot) : Prop := p = base ∨ p.Within base

theorem On.inside {p base : Spot} (h : p.On base) (kind : FrameKind) (commands : List Command)
    (scope : ScopeId) (k line : Nat) : (p.inside kind commands scope k line).Within base := by
  obtain rfl | ⟨inner, j, l, h⟩ := h
  · exact ⟨[], k, line, rfl⟩
  · exact ⟨p.frame.placed k line :: inner, j, l, congrArg (List.cons _) h⟩

/-- The frames that a statement with these surroundings looks for are there. -/
structure Lies (p base : Spot) (c : Surroundings) : Prop where
  on : p.On base
  breaks : c.breaks → FrameKind.breaks ((p.frame :: p.below).map Frame.kind) = true
  continues : c.continues → FrameKind.continues ((p.frame :: p.below).map Frame.kind) = true

theorem Lies.inside {p base : Spot} {c c' : Surroundings} (h : p.Lies base c)
    {kind : FrameKind} (commands : List Command) (scope : ScopeId) (k line : Nat)
    (hb : c'.breaks → FrameKind.breaks (kind :: (p.frame :: p.below).map Frame.kind) = true)
    (hc : c'.continues → FrameKind.continues (kind :: (p.frame :: p.below).map Frame.kind) = true) :
    (p.inside kind commands scope k line).Lies base c' where
  on := Or.inr (h.on.inside kind commands scope k line)
  breaks := hb
  continues := hc

end Spot

/-! ## Ends of invocations -/

theorem Session.endInvocation_some {t : Session} {scope : ScopeId}
    (hs : t.invocationScope = some scope) :
    t.endInvocation = { t with
      machine := { t.machine with
        scopes := (t.frames.foldl (fun a f => a.pop f.scope) t.machine.scopes).pop scope
        callResults := [] }
      frames := []
      invocationScope := none } := by
  unfold endInvocation
  simp only [hs, Option.isSome_some, if_true]

/-- Unwinding finds the function of the invocation; all that is left to close is its scope. -/
theorem Session.unwind_invoked {g : Function} {scope : ScopeId} {frames : List Frame}
    (h : Invoked g scope frames) (scopes : ScopeArena Slot) : ∃ scopes' f,
      unwind scopes frames = (scopes', some (f, [])) ∧ f.function = some g ∧
      frames.foldl (fun a f => a.pop f.scope) scopes = scopes'.pop scope := by
  induction h generalizing scopes with
  | @entry f hk hf hs =>
    refine ⟨scopes, f, ?_, hf, ?_⟩
    · rw [unwind, if_pos hk]
    · rw [List.foldl_cons, List.foldl_nil, hs]
  | @inner f rest hk _ ih =>
    obtain ⟨scopes', f', hunwind, hf, hfold⟩ := ih (scopes.pop f.scope)
    exact ⟨scopes', f', by rw [unwind, if_neg hk, hunwind], hf, by rw [List.foldl_cons, hfold]⟩

namespace Step

variable {α β : Type} {t t₁ : Session} {a : α}

theorem get_bind (f : Session → Step β) (t : Session) : (get >>= f : Step β) t = f t t := rfl

theorem modify_bind (change : Session → Session) (f : PUnit → Step β) (t : Session) :
    (modify change >>= f : Step β) t = f ⟨⟩ (change t) := rfl

theorem bind_eq {x : Step α} {f : α → Step β} (h : x t = .ok (a, t₁)) :
    (x >>= f) t = f a t₁ := by
  change (x t >>= fun r => f r.1 r.2) = _
  rw [h]
  rfl

theorem onMachine_eq {x : Exec α} {m : Machine} (h : x t.machine = .ok (a, m)) :
    onMachine x t = .ok (a, { t with machine := m }) := by
  change (x t.machine >>= fun r => .ok (r.1, { t with machine := r.2 })) = _
  rw [h]
  rfl

/-- The function of an invocation returns: the invocation ends. -/
theorem finishCall_invoked {g : Function} {scope : ScopeId} (hg : g.returnType = none)
    (hs : t.invocationScope = some scope) (h : Session.Invoked g scope t.frames)
    (value : Option Value) : finishCall value t = .ok ((), t.endInvocation) := by
  obtain ⟨scopes, f, hunwind, hf, hfold⟩ := Session.unwind_invoked h t.machine.scopes
  have returned : ∃ v, frameValue f value { t.machine with scopes } =
      .ok (v, { t.machine with scopes }) := by
    cases value with
    | none => exact ⟨_, rfl⟩
    | some v =>
      refine ⟨v, ?_⟩
      unfold frameValue Eval.returnValue
      rw [hf]
      dsimp only
      rw [hg]
      rfl
  obtain ⟨v, hv⟩ := returned
  unfold finishCall
  rw [get_bind, hunwind]
  dsimp only
  rw [bind_eq (x := set _) (a := ⟨⟩) rfl, bind_eq (onMachine_eq hv)]
  refine congrArg (fun t => Except.ok ((), t)) ?_
  refine (Session.endInvocation_some (by exact hs)).trans ?_
  rw [Session.endInvocation_some hs, hfold]
  dsimp only [Session.withScopes, List.foldl_nil]
  rw [ScopeArena.pop_self]

/-- Frames are replaced without a complaint. -/
theorem reframe_found {line : Nat} {complaint : String}
    {outcome : ScopeArena Slot × List Frame × Bool} (h : outcome.2.2 = true) :
    reframe line complaint outcome t =
      .ok ((), { t.withScopes outcome.1 with frames := outcome.2.1 }) := by
  obtain ⟨scopes, frames, found⟩ := outcome
  cases h
  rfl

end Step

/-! ## What is passed over -/

namespace Session

/-- What happens when calls are stepped over: something is passed over, or a command is run. -/
inductive Advances (s : Shader) : Session → Session → Prop
  | passes {t t' : Session} : Passes s t t' → Advances s t t'
  | runs {t t' : Session} {f : Frame} {rest : List Frame} {c : Command} : t.frames = f :: rest →
      f.next? = some c → c.shows = true → Step.visible s false f c t = .ok ((), t') →
      Advances s t t'

section

variable {s : Shader} {t t' : Session}

/-- What is passed over is what `Step.within` passes over before it comes to the rest. -/
theorem Passes.within (h : Passes s t t') (enterCalls : Bool) (n : Nat) :
    Step.within s enterCalls (n + 1) t = Step.within s enterCalls n t' := by
  rw [Step.within]
  refine (Step.get_bind _ _).trans ?_
  cases h with
  | start hf hstart =>
    rw [hf]
    exact Step.bind_eq hstart
  | finish hf hnone hend =>
    rw [hf]
    dsimp only
    rw [hnone]
    exact Step.bind_eq hend
  | jump hf hc =>
    rw [hf]
    dsimp only
    rw [hc]
    rfl
  | block hf hc =>
    rw [hf]
    dsimp only
    rw [hc]
    rfl
  | loop hf hc =>
    rw [hf]
    dsimp only
    rw [hc]
    rfl

/-- A step goes on after what it has passed over, and ends with the command that it has run. -/
theorem Advances.within (h : Advances s t t') (n : Nat) :
    Step.within s false (n + 1) t = Step.within s false n t' ∨
      Step.within s false (n + 1) t = .ok (.ok true, t') := by
  cases h with
  | passes h => exact Or.inl (h.within false n)
  | @runs f rest c hf hc hshow hrun =>
    refine Or.inr ?_
    rw [Step.within]
    refine (Step.get_bind _ _).trans ?_
    rw [hf]
    dsimp only
    rw [hc]
    cases c with
    | block => cases hshow
    | jump => cases hshow
    | loop => cases hshow
    | _ => exact Step.bind_eq hrun

end

/-- The session is inside the commands of the frame: at one of them, or in frames opened there. -/
def Inside (base : Spot) (t : Session) : Prop :=
  ∃ inner j line, t.frames = inner ++ base.frame.placed j line :: base.below ∧
    (inner = [] → j < base.frame.commands.length)

/-- What happens inside the commands of a frame. -/
def Proceeds (base : Spot) (s : Shader) (t t' : Session) : Prop := t.Inside base ∧ Advances s t t'

/-- Stepping over calls leads from one session to another, inside the commands of a frame on the
way. -/
def Leads (base : Spot) (s : Shader) : Session → Session → Prop :=
  Relation.ReflTransGen (Proceeds base s)

/-- Stepping comes to a command that does what the computation does in the other session. -/
def Performs (base : Spot) (s : Shader) (start : Session) (x : Step Unit) (t : Session) : Prop :=
  ∃ t₁ f rest c, Leads base s start t₁ ∧ t₁.Inside base ∧ t₁.frames = f :: rest ∧
    f.next? = some c ∧ c.shows = true ∧ Step.visible s false f c t₁ = x t

/-- Stepping comes to the end of a statement: the frames are left as the end says, or it comes to a
command that ends the call in the same way. -/
def Ends (base : Spot) (s : Shader) (start : Session) : Flow → Session → Prop
  | .return_ value, t => Performs base s start (Step.finishCall value) t
  | flow, t => Leads base s start (t.flowed flow)

/-! ## Where stepping parts from running -/

/-- The next command is a condition that fails, and the branch that it guards is not the last. -/
def Falters (s : Shader) (t : Session) : Prop :=
  ∃ f rest line e target finish err m, t.frames = f :: rest ∧
    f.next? = some (.branch line e target) ∧ f.commands[f.cursor + 2]? = some (.jump finish) ∧
    finish ≠ target ∧
    (Eval.condition s (Eval.call s) f.scope e).run t.machine = .ok (.error err, m) ∧
    m.discarded = false

/-- The innermost frame is that of a loop at its begin. -/
def Begins (t : Session) : Prop :=
  ∃ f rest target, t.frames = f :: rest ∧ f.kind = .loop target ∧ f.cursor = 0

/-- Stepping comes back to the begin of a loop. -/
def Restarts (base : Spot) (s : Shader) (t t' : Session) : Prop :=
  Relation.TransGen (Proceeds base s) t t' ∧ t.Begins ∧ t'.Begins ∧ t'.frames.tail = t.frames.tail

/-- A loop begins again so many times. -/
def Laps (base : Spot) (s : Shader) : Nat → Session → Prop
  | 0, _ => True
  | n + 1, t => ∃ t', Restarts base s t t' ∧ Laps base s n t'

/-- Inside the commands of a frame stepping comes to where it parts from running. -/
inductive Departs (base : Spot) (s : Shader) (t : Session) : Prop
  /-- A called function discards: a run may go on with the statement of the call. -/
  | discards {t' : Session} : Leads base s t t' → t'.machine.discarded = true → Departs base s t
  /-- The condition of a branch fails: the further branches are tried, while a run leaves them. -/
  | falters {t' : Session} : Leads base s t t' → t'.Inside base → t'.Falters s → Departs base s t
  /-- A loop goes on after as many rounds as a run makes. -/
  | tires {t' : Session} : Leads base s t t' → Laps base s (maxLoopIterations + 1) t' → Departs base s t

variable {base : Spot} {s : Shader} {t t' t₁ : Session}

theorem Departs.head (h : Departs base s t') (ht : Leads base s t t') : Departs base s t := by
  cases h with
  | discards hleads hd => exact .discards (ht.trans hleads) hd
  | falters hleads hin hf => exact .falters (ht.trans hleads) hin hf
  | tires hleads hlaps => exact .tires (ht.trans hleads) hlaps

theorem Performs.leads {x : Step Unit} (h : Performs base s t x t₁) (hx : x t₁ = .ok ((), t')) :
    Leads base s t t' := by
  obtain ⟨t₂, f, rest, c, hleads, hin, hf, hc, hshow, hrun⟩ := h
  exact hleads.tail ⟨hin, .runs hf hc hshow (hrun.trans hx)⟩

theorem Ends.head {flow : Flow} (h : Ends base s t' flow t₁) (ht : Leads base s t t') :
    Ends base s t flow t₁ := by
  cases flow with
  | return_ value =>
    obtain ⟨t₂, f, rest, c, hleads, behind⟩ := h
    exact ⟨t₂, f, rest, c, ht.trans hleads, behind⟩
  | _ => exact ht.trans h

/-- Stepping that moves the frames takes a step. -/
theorem Leads.strict (h : Leads base s t t') (hne : t.frames ≠ t'.frames) :
    Relation.TransGen (Proceeds base s) t t' := by
  obtain rfl | h := Relation.reflTransGen_iff_eq_or_transGen.1 h
  · exact absurd rfl hne
  · exact h

/-- Stepping parts from running, which it may do unless nothing may go wrong, or the property holds. -/
def Keeps (lax : Prop) (base : Spot) (s : Shader) (t : Session) (P : Prop) : Prop :=
  (¬lax ∧ t.Departs base s) ∨ P

variable {lax P Q : Prop}

theorem Keeps.imp (h : t.Keeps lax base s P) (hPQ : P → Q) : t.Keeps lax base s Q := Or.imp id hPQ h

theorem Keeps.head (h : t'.Keeps lax base s P) (ht : Leads base s t t') : t.Keeps lax base s P :=
  Or.imp (And.imp id fun departs => departs.head ht) id h

end Session

namespace Spot

variable {p : Spot} {base : Spot} {c : Surroundings} {flow : Flow} {m m₁ : Machine}
  {k line line' target : Nat} {s : Shader} {commands : List Command} {cmd : Command}
  {kind : FrameKind} {scope : ScopeId}

theorem On.standing (h : p.On base) (hc : p.frame.commands[k]? = some cmd) (m : Machine) (line : Nat) :
    (p.standing m k line).Inside base := by
  obtain rfl | ⟨inner, j, l, hbelow⟩ := h
  · exact ⟨[], k, line, rfl, fun _ => (List.getElem?_eq_some_iff.1 hc).1⟩
  · exact ⟨p.frame.placed k line :: inner, j, l, congrArg (List.cons _) hbelow, nofun⟩

theorem Within.standing (h : p.Within base) (m : Machine) (k line : Nat) :
    (p.standing m k line).Inside base := by
  obtain ⟨inner, j, l, hbelow⟩ := h
  exact ⟨p.frame.placed k line :: inner, j, l, congrArg (List.cons _) hbelow, nofun⟩

theorem leads_jump (hp : p.On base) (hc : p.frame.commands[k]? = some (.jump target)) :
    Session.Leads base s (p.standing m k line) (p.standing m target line) :=
  .single ⟨hp.standing hc m line, .passes (.jump rfl hc)⟩

theorem leads_block (hp : p.On base) (hc : p.frame.commands[k]? = some (.block commands)) :
    Session.Leads base s (p.standing m k line)
      ((p.inside .block commands m.scopes.depth (k + 1) line).standing (m.pushed p.frame.scope) 0
        line) :=
  .single ⟨hp.standing hc m line, .passes (.block rfl hc)⟩

theorem leads_loop (hp : p.On base)
    (hc : p.frame.commands[k]? = some (.loop commands target)) :
    Session.Leads base s (p.standing m k line)
      ((p.inside (.loop target) commands m.scopes.depth (k + 1) line).standing
        (m.pushed p.frame.scope) 0 line) :=
  .single ⟨hp.standing hc m line, .passes (.loop rfl hc)⟩

/-- The end of the commands closes a block or a clause. -/
theorem leads_close (hp : p.On base) (hk : kind = .block ∨ kind = .switch) :
    Session.Leads base s ((p.inside kind commands scope k line).standing m commands.length line')
      (p.standing (m.popped scope) k line) := by
  have past : (Frame.placed (p.frame.child kind commands scope line) commands.length line').next? =
      none := List.getElem?_eq_none (Nat.le_refl _)
  refine .single ⟨(hp.inside kind commands scope k line).standing m _ line', .passes (.finish rfl past ?_)⟩
  obtain rfl | rfl := hk <;> rfl

/-- At the end of its commands a loop begins again. -/
theorem proceeds_again (hp : p.On base) :
    Session.Proceeds base s
      ((p.inside (.loop target) commands scope k line).standing m commands.length line')
      ((p.inside (.loop target) commands scope k line).standing m 0 line') :=
  ⟨(hp.inside (.loop target) commands scope k line).standing m _ line',
    .passes (.finish rfl (List.getElem?_eq_none (Nat.le_refl _)) rfl)⟩

/-! ## What ends do to frames -/

/-- The end of a call closes the frames inside that of the function. -/
theorem finishCall_inside (hk : kind ≠ .function) (value : Option Value) :
    Step.finishCall value ((p.inside kind commands scope k line).standing m target line') =
      Step.finishCall value (p.standing (m.popped scope) k line) := by
  have unwound : Session.unwind
      ((p.inside kind commands scope k line).standing m target line').machine.scopes
      ((p.inside kind commands scope k line).standing m target line').frames =
        Session.unwind (p.standing (m.popped scope) k line).machine.scopes
          (p.standing (m.popped scope) k line).frames := if_neg hk
  unfold Step.finishCall
  rw [Step.get_bind, Step.get_bind, unwound]
  obtain ⟨scopes, found⟩ := Session.unwind (p.standing (m.popped scope) k line).machine.scopes
    (p.standing (m.popped scope) k line).frames
  cases found <;> rfl

theorem performs_inside (hk : kind ≠ .function) {value : Option Value} {t : Session}
    (h : t.Performs base s (Step.finishCall value)
      ((p.inside kind commands scope k line).standing m target line')) :
    t.Performs base s (Step.finishCall value) (p.standing (m.popped scope) k line) := by
  obtain ⟨t₁, f, rest, c, hleads, hin, hf, hc, hshow, hrun⟩ := h
  exact ⟨t₁, f, rest, c, hleads, hin, hf, hc, hshow, hrun.trans (finishCall_inside hk value)⟩

theorem ends_block (hn : flow ≠ .normal) {t : Session}
    (h : t.Ends base s flow ((p.inside .block commands scope k line).standing m target line')) :
    t.Ends base s flow (p.standing (m.popped scope) k line) := by
  cases flow with
  | normal => exact absurd rfl hn
  | return_ value =>
    have inner : FrameKind.block ≠ .function := nofun
    exact performs_inside inner h
  | _ => exact h

theorem ends_switch (hn : flow ≠ .normal) (hb : flow ≠ .break_) {t : Session}
    (h : t.Ends base s flow ((p.inside .switch commands scope k line).standing m target line')) :
    t.Ends base s flow (p.standing (m.popped scope) k line) := by
  cases flow with
  | normal => exact absurd rfl hn
  | break_ => exact absurd rfl hb
  | return_ value =>
    have inner : FrameKind.switch ≠ .function := nofun
    exact performs_inside inner h
  | _ => exact h

/-! ## Commands -/

/-- A command that asks for the end of a statement comes to it. -/
theorem ends_of_performs {t : Session} {l : Nat}
    (hp : t.Performs base s (Step.apply l flow.move) (p.standing m k line)) (h : p.Lies base c)
    (hl : flow.Lands c) : t.Ends base s flow (p.standing m k line) := by
  cases flow with
  | normal => exact hp.leads rfl
  | discard => exact hp.leads rfl
  | return_ value => exact hp
  | break_ =>
    have found := (Session.leave_found m.scopes (p.standing m k line).frames).trans (h.breaks hl)
    exact hp.leads (Step.reframe_found (t := p.standing m k line) found)
  | continue_ =>
    have found := (Session.restart_found m.scopes (p.standing m k line).frames).trans
      (h.continues hl)
    exact hp.leads (Step.reframe_found (t := p.standing m k line) found)

/-- What follows a command with this outcome. -/
def afterCommand (line : Nat) : Run Move → Step Unit
  | .ok move => Step.apply line move
  | .error e => Step.onMachine (Exec.report (e.at_ line))

/-- The innermost frame runs a command with no outcomes of calls. -/
theorem runVisible_standing {outcome : Run Move}
    (hrun : (Eval.command s p.session.config p.frame.scope cmd).run m = .ok (outcome, m₁))
    (hm : m.callResults = []) (hm₁ : m₁.callResults = []) :
    Step.visible s false (p.frame.placed k line) cmd (p.standing m k line) =
      (if m₁.discarded then Step.apply cmd.line .endInvocation else afterCommand cmd.line outcome)
        (p.standing m₁ (k + 1) cmd.line) := by
  have same : ∀ n : Machine, n.callResults = [] → { n with callResults := [] } = n := by
    rintro ⟨⟩ h
    cases h
    rfl
  have ran : (do
      modify fun m => { m with callResults := (p.frame.placed k line).results }
      let outcome ← (Eval.command s p.session.config p.frame.scope cmd).run
      modify fun m => { m with callResults := [] }
      return outcome : Exec (Run Move)) m = .ok (outcome, m₁) := by
    change ((Eval.command s p.session.config p.frame.scope cmd).run { m with callResults := [] } >>=
      fun r => .ok (r.1, { r.2 with callResults := [] })) = _
    rw [same m hm, hrun]
    change Except.ok (outcome, { m₁ with callResults := [] }) = _
    rw [same m₁ hm₁]
  change Step.runVisible s (p.frame.placed k line) cmd (p.standing m k line) = _
  unfold Step.runVisible
  refine (Step.modify_bind _ _ _).trans ?_
  refine (Step.get_bind _ _).trans ?_
  refine (Step.bind_eq (Step.onMachine_eq ran)).trans ((Step.get_bind _ _).trans ?_)
  cases outcome <;> rfl

/-- A command that succeeds is run, and what it asks for is done behind it. -/
theorem visible_standing {move : Move}
    (hrun : (Eval.command s p.session.config p.frame.scope cmd).run m = .ok (.ok move, m₁))
    (hm : m.callResults = []) (hm₁ : m₁.callResults = []) (hd : m₁.discarded = false) :
    Step.visible s false (p.frame.placed k line) cmd (p.standing m k line) =
      Step.apply cmd.line move (p.standing m₁ (k + 1) cmd.line) :=
  (runVisible_standing hrun hm hm₁).trans
    (congrFun (if_neg (by rw [hd]; exact Bool.false_ne_true)) _)

/-- A command that fails is reported. -/
theorem leads_error {e : RunError} (hp : p.On base) (hc : p.frame.commands[k]? = some cmd)
    (hshow : cmd.shows = true)
    (hrun : (Eval.command s p.session.config p.frame.scope cmd).run m = .ok (.error e, m₁))
    (hm : m.callResults = []) (hm₁ : m₁.callResults = []) (hd : m₁.discarded = false) :
    Session.Leads base s (p.standing m k line)
      (p.standing (m₁.reporting (e.at_ cmd.line)) (k + 1) cmd.line) :=
  .single ⟨hp.standing hc m line, .runs rfl hc hshow ((runVisible_standing hrun hm hm₁).trans
    (congrFun (if_neg (by rw [hd]; exact Bool.false_ne_true)) _))⟩

/-- A command in which a called function discards ends the invocation. -/
theorem leads_discarded {outcome : Run Move} (hp : p.On base) (hc : p.frame.commands[k]? = some cmd)
    (hshow : cmd.shows = true)
    (hrun : (Eval.command s p.session.config p.frame.scope cmd).run m = .ok (outcome, m₁))
    (hm : m.callResults = []) (hm₁ : m₁.callResults = []) (hd : m₁.discarded = true) :
    Session.Leads base s (p.standing m k line) (p.standing m₁ (k + 1) cmd.line).endInvocation :=
  .single ⟨hp.standing hc m line, .runs rfl hc hshow ((runVisible_standing hrun hm hm₁).trans
    (congrFun (if_pos hd) _))⟩

/-- What a command asks for is done behind it. -/
theorem performs_move {move : Move} (hp : p.On base) (hc : p.frame.commands[k]? = some cmd)
    (hshow : cmd.shows = true)
    (hrun : (Eval.command s p.session.config p.frame.scope cmd).run m = .ok (.ok move, m₁))
    (hm : m.callResults = []) (hm₁ : m₁.callResults = []) (hd : m₁.discarded = false) :
    (p.standing m k line).Performs base s (Step.apply cmd.line move)
      (p.standing m₁ (k + 1) cmd.line) :=
  ⟨_, _, _, cmd, .refl, hp.standing hc m line, rfl, hc, hshow, visible_standing hrun hm hm₁ hd⟩

end Spot

end Wgsl
