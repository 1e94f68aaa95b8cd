import Wgsl.Proofs.Stepper.Frames

/-! # Names in the rounds of a loop

The frame of a loop keeps its scope from round to round. It is opened without names, and a later
round finds in it what the commands of the loop have declared there; every other name resolves as it
does around the loop.

* `Tidy`: frames inside functions bind only what their own commands declare.
* `Session.Tidied`: the invariant of a session, kept by everything that a step does.
* `Session.Reachable.round_names`: what the scope of a loop holds when a round begins.
-/

namespace Wgsl
set_option autoImplicit false

open Machine (KeepsStack)

/-- The names that commands declare in the scope of their frame. -/
def Command.declared (commands : List Command) : List String := commands.filterMap Command.declares?

/-- A command binds at most the name that it declares, apart from names of the root. -/
theorem Eval.command_binds {s : Shader} {config : Config} {c : Command} {scope id : ScopeId}
    {name : String} {m m₁ : Machine} {outcome : Run Move} (hlive : scope < m.scopes.depth)
    (h : (Eval.command s config scope c).run m = .ok (outcome, m₁)) (hroot : id ≠ ScopeArena.root)
    (hb : m₁.scopes.Binds id name) :
    m.scopes.Binds id name ∨ (id = scope ∧ c.declares? = some name) := by
  have hopen : 0 < m.scopes.depth := Nat.zero_lt_of_lt hlive
  have keeps := Exec.keepsStack_command config c m outcome m₁ hopen h
  by_cases howner : some id = c.owner? scope
  · cases c with
    | simple st =>
      change some id = (st.action.declares?.map fun _ => scope) at howner
      cases ha : st.action with
      | declare kind v =>
        rw [ha] at howner
        cases howner
        rw [Eval.command, ExceptT.run_bind] at h
        obtain ⟨flow, m₂, h₂, h₃⟩ := Exec.bind_ok h
        change (Eval.simple s (Eval.call s) scope st >>= fun a => pure (Except.ok a)) m = _ at h₂
        obtain ⟨flow', m₄, h₄, h₅⟩ := Exec.bind_ok h₂
        cases h₅
        cases h₃
        refine ((Eval.declares_simple ha hlive h₄).own name).1 hb |>.imp_right fun e => ⟨rfl, ?_⟩
        rw [Command.declares?, ha]
        exact e.symm
      | _ =>
        rw [ha] at howner
        cases howner
    | declaration d =>
      cases howner
      exact absurd rfl hroot
    | _ => cases howner
  · exact Or.inl ((keeps.names id name howner).1 hb)

/-! ## Tidy frames -/

/-- The frames inside functions bind only names that their own commands declare, and every chain of
scopes ends at the root. -/
structure Tidy (a : ScopeArena Slot) (frames : List Frame) : Prop where
  root : a.parent? ScopeArena.root = none
  names : ∀ f ∈ frames, f.kind ≠ .function → ∀ name, a.Binds f.scope name →
    name ∈ Command.declared f.commands

theorem ScopeArena.parent?_root_pop {α : Type} {a : ScopeArena α} (id : ScopeId) :
    (a.pop id).parent? root = a.parent? root := by
  obtain rfl | hid := Nat.eq_zero_or_pos id
  · rfl
  · exact parent?_pop hid

section

variable {a b : ScopeArena Slot} {f g : Frame} {frames below : List Frame} {parent : ScopeId}

theorem Standing.scope_pos (h : Standing a frames) (hf : f ∈ frames) : f.scope ≠ ScopeArena.root := by
  induction frames with
  | nil => cases hf
  | cons g below ih =>
    obtain rfl | hf := List.mem_cons.1 hf
    · rw [h.1]
      exact Nat.succ_ne_zero _
    · exact ih h.2.2.2 hf

theorem Standing.parent_lt (h : Standing a frames) {id parent : ScopeId} (hid : 0 < id)
    (hle : id ≤ frames.length) (hp : a.parent? id = some parent) : parent < id := by
  induction frames with
  | nil => exact absurd (Nat.lt_of_lt_of_le hid hle) (Nat.lt_irrefl 0)
  | cons f below ih =>
    obtain ⟨hscope, hparent, -, hbelow⟩ := h
    obtain hlt | rfl := Nat.lt_or_eq_of_le hle
    · exact ih hbelow (Nat.le_of_lt_succ hlt)
    · have height : f.scope = (f :: below).length := hscope
      rw [← height, hparent] at hp
      cases hp
      unfold Frame.base
      split
      · exact Nat.succ_pos _
      · exact Nat.lt_succ_self _

theorem Tidy.congr (h : Tidy a frames)
    (hroot : b.parent? ScopeArena.root = a.parent? ScopeArena.root)
    (hb : ∀ f ∈ frames, ∀ name, b.Binds f.scope name → a.Binds f.scope name) : Tidy b frames :=
  ⟨hroot.trans h.root, fun f hf hk name hn => h.names f hf hk name (hb f hf name hn)⟩

theorem Tidy.tail (h : Tidy a (f :: below)) : Tidy a below :=
  ⟨h.root, fun g hg => h.names g (.tail _ hg)⟩

/-- Frames of functions are tidy whatever is bound in them. -/
theorem Tidy.of_functions (hroot : a.parent? ScopeArena.root = none)
    (h : ∀ f ∈ frames, f.kind = .function) : Tidy a frames :=
  ⟨hroot, fun f hf hk => absurd (h f hf) hk⟩

/-- Where the innermost frame stands in its commands does not matter. -/
theorem Tidy.retop (h : Tidy a (f :: below)) (hk : g.kind = f.kind) (hs : g.scope = f.scope)
    (hc : g.commands = f.commands) : Tidy a (g :: below) := by
  obtain ⟨hf, hbelow⟩ := List.forall_mem_cons.1 h.names
  refine ⟨h.root, List.forall_mem_cons.2 ⟨fun hkind name hn => ?_, hbelow⟩⟩
  rw [hk] at hkind
  rw [hs] at hn
  rw [hc]
  exact hf hkind name hn

/-- A frame is opened without names. -/
theorem Tidy.push (h : Tidy a frames) (hopen : 0 < a.depth) (hs : f.scope = a.depth) :
    Tidy (a.push parent).1 (f :: frames) := by
  have pushed : Tidy (a.push parent).1 frames :=
    h.congr (ScopeArena.parent?_push_of_ne hopen.ne) fun f _ name hn => ScopeArena.binds_push.1 hn
  refine ⟨pushed.root, List.forall_mem_cons.2 ⟨fun _ name hn => ?_, pushed.names⟩⟩
  rw [hs, ScopeArena.binds_push] at hn
  exact absurd hn (ScopeArena.not_binds_of_depth_le (Nat.le_refl _))

theorem Tidy.pop (h : Tidy a (f :: below)) (ht : Tower a (f :: below)) :
    Tidy (a.pop f.scope) below := by
  refine h.tail.congr (ScopeArena.parent?_root_pop _) fun g hg name hn => ?_
  refine (ScopeArena.binds_pop ?_).1 hn
  rw [ht.standing.1]
  exact Nat.lt_succ_of_le (ht.standing.2.2.2.scope_le hg)

theorem Tidy.unwind (h : Tidy a frames) (ht : Tower a frames) {scopes : ScopeArena Slot}
    {callers : List Frame} (hu : Session.unwind a frames = (scopes, some (f, callers))) :
    Tidy scopes (f :: callers) ∧ Tower scopes (f :: callers) := by
  induction frames generalizing a with
  | nil => cases hu
  | cons g below ih =>
    rw [Session.unwind] at hu
    by_cases hk : g.kind = .function
    · rw [if_pos hk] at hu
      cases hu
      exact ⟨h, ht⟩
    · rw [if_neg hk] at hu
      exact ih (h.pop ht) ht.pop hu

theorem Tidy.leave (h : Tidy a frames) (ht : Tower a frames) :
    Tidy (Session.leave a frames).1 (Session.leave a frames).2.1 := by
  induction frames generalizing a with
  | nil => exact h
  | cons f below ih =>
    rw [Session.leave]
    cases f.kind with
    | function => exact h
    | block => exact ih (h.pop ht) ht.pop
    | loop target => exact h.pop ht
    | switch => exact h.pop ht

theorem Tidy.restart (h : Tidy a frames) (ht : Tower a frames) :
    Tidy (Session.restart a frames).1 (Session.restart a frames).2.1 := by
  induction frames generalizing a with
  | nil => exact h
  | cons f below ih =>
    rw [Session.restart]
    cases hk : f.kind with
    | function => exact h
    | block => exact ih (h.pop ht) ht.pop
    | switch => exact ih (h.pop ht) ht.pop
    | loop target => exact h.retop hk.symm rfl rfl

end

/-! ## Each step keeps frames tidy -/

namespace Session

/-- The frames and scopes of a session are in order, and its frames are tidy once anything has been
begun. -/
structure Tidied (s : Shader) (t : Session) : Prop where
  framed : Framed s t
  tidy : (t.frames = [] ∧ t.plan = none) ∨ Tidy t.machine.scopes t.frames

variable {s : Shader} {t t' : Session} {f : Frame} {rest : List Frame} {c : Command}

theorem Tidied.of_frames (h : Tidied s t) (hf : t.frames = f :: rest) :
    Tidy t.machine.scopes t.frames :=
  h.tidy.resolve_left fun none => by cases hf.symm.trans none.1

theorem tidy_onTop (h : Tidy t.machine.scopes t.frames) {change : Frame → Frame}
    (hk : ∀ f, (change f).kind = f.kind) (hs : ∀ f, (change f).scope = f.scope)
    (hc : ∀ f, (change f).commands = f.commands) :
    Tidy (t.onTop change).machine.scopes (t.onTop change).frames := by
  unfold Session.onTop
  split
  · exact h
  · rename_i f below hf
    exact Tidy.retop (hf ▸ h) (hk f) (hs f) (hc f)

theorem tidy_pushFrame (h : Tidy t.machine.scopes t.frames) (hopen : 0 < t.machine.scopes.depth)
    (kind : FrameKind) (commands : List Command) :
    Tidy (t.pushFrame kind commands).machine.scopes (t.pushFrame kind commands).frames := by
  unfold Session.pushFrame
  split
  · exact h
  · rename_i f below hf
    exact h.push hopen rfl

theorem tidy_popFrame (h : Tidy t.machine.scopes t.frames) (hr : Running s t) :
    Tidy t.popFrame.machine.scopes t.popFrame.frames := by
  unfold Session.popFrame
  split
  · exact h
  · rename_i f below hf
    exact Tidy.pop (hf ▸ h) (hf ▸ hr.tower)

theorem parent?_root_popAll (frames : List Frame) (a : ScopeArena Slot) :
    (frames.foldl (fun a f => a.pop f.scope) a).parent? ScopeArena.root =
      a.parent? ScopeArena.root := by
  induction frames generalizing a with
  | nil => rfl
  | cons f below ih => exact (ih _).trans (ScopeArena.parent?_root_pop _)

theorem tidy_endInvocation (h : t.machine.scopes.parent? ScopeArena.root = none) :
    Tidy t.endInvocation.machine.scopes t.endInvocation.frames := by
  refine ⟨?_, nofun⟩
  have popped := (parent?_root_popAll t.frames t.machine.scopes).trans h
  unfold endInvocation
  dsimp only
  cases t.invocationScope with
  | none => exact popped
  | some scope => exact (ScopeArena.parent?_root_pop scope).trans popped

/-- Where no name is bound, frames stay tidy. -/
theorem tidy_keeps (h : Tidy t.machine.scopes t.frames) {m : Machine}
    (hm : KeepsStack none t.machine m) : Tidy m.scopes t.frames :=
  h.congr (hm.parents _) fun f _ name hn => (hm.names f.scope name nofun).1 hn

end Session

namespace Step

open Session (Framed Running Tidied tidy_onTop tidy_pushFrame tidy_popFrame tidy_endInvocation)

variable {s : Shader} {t t' : Session} {f : Frame} {rest : List Frame} {c : Command}

theorem tidy_finishCall (h : Running s t) (hne : t.frames ≠ []) (ht : Tidy t.machine.scopes t.frames)
    {value : Option Value} (hcall : finishCall value t = .ok ((), t')) :
    Tidy t'.machine.scopes t'.frames := by
  obtain ⟨hnone, -⟩ | ⟨scopes, f, callers, v, m, hunwind, hvalue, rfl⟩ := finishCall_ok hcall
  · obtain ⟨scopes, f, callers, hunwind, -⟩ := h.tower.unwind hne
    rw [hunwind] at hnone
    cases hnone
  · obtain ⟨tidy, tower⟩ := ht.unwind h.tower hunwind
    have opened : 0 < scopes.depth := by
      rw [tower.depth]
      exact Nat.succ_pos _
    have kept := Exec.keepsStack_frameValue f value { t.machine with scopes } v m opened hvalue
    have tower := tower.congr (b := m.scopes) kept.depth kept.parents
    have tidy : Tidy m.scopes (f :: callers) :=
      tidy.congr (kept.parents _) fun g _ name hn => (kept.names g.scope name nofun).1 hn
    split
    · exact tidy_endInvocation tidy.root
    · refine tidy_onTop (tidy.pop tower) (fun g => ?_) (fun g => ?_) fun g => ?_
      · cases f.call <;> rfl
      · cases f.call <;> rfl
      · cases f.call <;> rfl

theorem tidy_apply (h : Running s t) (hne : t.frames ≠ []) (ht : Tidy t.machine.scopes t.frames) {line : Nat} {move : Move}
    (hmove : apply line move t = .ok ((), t')) : Tidy t'.machine.scopes t'.frames := by
  have reframed : ∀ {line complaint outcome}, Tidy outcome.1 outcome.2.1 →
      reframe line complaint outcome t = .ok ((), t') → Tidy t'.machine.scopes t'.frames := by
    rintro line complaint ⟨scopes, frames, found⟩ tidy hmove
    obtain ⟨_, t₁, h₁, hmove⟩ := bind_ok hmove
    cases h₁
    cases found with
    | true =>
      cases hmove
      exact tidy
    | false =>
      obtain ⟨m, hm, rfl⟩ := onMachine_ok hmove
      cases hm
      exact tidy
  cases move with
  | next =>
    cases hmove
    exact ht
  | jump target =>
    cases hmove
    exact tidy_onTop ht (fun _ => rfl) (fun _ => rfl) fun _ => rfl
  | break_ => exact reframed (ht.leave h.tower) hmove
  | continue_ => exact reframed (ht.restart h.tower) hmove
  | return_ value => exact tidy_finishCall h hne ht hmove
  | enter commands =>
    cases hmove
    exact tidy_pushFrame ht h.opened _ _
  | endInvocation =>
    cases hmove
    exact tidy_endInvocation ht.root

/-- A command of a frame binds at most what it declares, in the scope of its frame. -/
theorem tidy_command (h : Running s t) (ht : Tidy t.machine.scopes t.frames)
    (hf : t.frames = f :: rest) (hc : f.next? = some c) {m : Machine} {outcome : Run Move}
    (hcommand : (Eval.command s t.config f.scope c).run
      { t.machine with callResults := f.results } = .ok (outcome, m)) :
    Tidy m.scopes (taken f c :: rest) := by
  have tower : Tower t.machine.scopes (f :: rest) := hf ▸ h.tower
  have tidy : Tidy t.machine.scopes (f :: rest) := hf ▸ ht
  have live : f.scope < t.machine.scopes.depth := by
    rw [tower.depth, tower.standing.1]
    exact Nat.lt_succ_self _
  have keeps := Exec.keepsStack_command t.config c { t.machine with callResults := f.results }
    outcome m h.opened hcommand
  refine Tidy.retop (f := f) ⟨(keeps.parents _).trans tidy.root, fun g hg hk name hn => ?_⟩ rfl rfl rfl
  obtain old | ⟨hscope, hname⟩ :=
    Eval.command_binds (m := { t.machine with callResults := f.results }) live hcommand
      (tower.standing.scope_pos hg) hn
  · exact tidy.names g hg hk name old
  · -- the scope is that of the frame itself, since frames below have scopes of their own
    obtain rfl | hg := List.mem_cons.1 hg
    · exact List.mem_filterMap.2 ⟨c, List.mem_of_getElem? hc, hname⟩
    · have below := tower.standing.2.2.2.scope_le hg
      rw [hscope, tower.standing.1] at below
      exact absurd below (Nat.not_succ_le_self _)

theorem tidy_runVisible (h : Running s t) (ht : Tidy t.machine.scopes t.frames)
    (hf : t.frames = f :: rest) (hc : f.next? = some c)
    (hrun : runVisible s f c t = .ok ((), t')) : Tidy t'.machine.scopes t'.frames := by
  obtain ⟨outcome, m, hcommand, hend⟩ := runVisible_ok hf hrun
  have tidy := tidy_command h ht hf hc hcommand
  have keeps := @Exec.keepsStack_command s f.scope t.config c
  have given : KeepsStack (c.owner? f.scope) t.machine { t.machine with callResults := f.results } :=
    KeepsStack.of_eq _ rfl rfl
  have dropped : KeepsStack (c.owner? f.scope) m { m with callResults := [] } :=
    KeepsStack.of_eq _ rfl rfl
  have kept := (given.trans (keeps _ outcome m h.opened hcommand)).trans dropped
  have after := (h.retop (g := taken f c) hf rfl rfl).machine kept
  dsimp only at hend
  split at hend
  · rw [hend]
    exact tidy_endInvocation tidy.root
  · cases outcome with
    | ok move => exact tidy_apply after (List.cons_ne_nil _ _) tidy hend
    | error e =>
      rw [hend]
      exact tidy

/-- A block or a loop is entered. -/
theorem tidy_opened (h : Tidied s t) (hf : t.frames = f :: rest) (kind : FrameKind)
    (commands : List Command) :
    Tidy ((t.onTop Frame.advanced).pushFrame kind commands).machine.scopes
      ((t.onTop Frame.advanced).pushFrame kind commands).frames := by
  have advanced : Tidy (t.onTop Frame.advanced).machine.scopes (t.onTop Frame.advanced).frames :=
    tidy_onTop (h.of_frames hf) (fun _ => rfl) (fun _ => rfl) fun _ => rfl
  refine tidy_pushFrame advanced ?_ kind commands
  unfold Session.onTop
  rw [hf]
  cases h.framed with
  | running hr => exact hr.opened
  | idle hf' => cases hf.symm.trans hf'
  | module _ _ _ _ hd => exact hd ▸ Nat.one_pos

/-- One thing that a step passes over keeps frames tidy. -/
theorem tidied_passes (h : Tidied s t) (hpass : Session.Passes s t t') : Tidied s t' := by
  refine ⟨framed_passes h.framed hpass, Or.inr ?_⟩
  cases hpass with
  | start hf hstart =>
    obtain ⟨-, plan, scope, m, hp, -, hm, rfl⟩ | ⟨habs, -⟩ := startInvocation_ok hstart
    · have tidy := h.tidy.resolve_left fun none => by cases hp.symm.trans none.2
      have depth : t.machine.scopes.depth = 1 := by
        cases h.framed with
        | running hr =>
          rw [hr.tower.depth, hf]
          rfl
        | idle _ hd => exact hd
        | module hf' => cases hf.symm.trans hf'
      have opens := Exec.opens_beginInvocation (depth ▸ Nat.one_pos) hm
      have kept : (t.machine.scopes.push ScopeArena.root).1.parent? ScopeArena.root = _ :=
        ScopeArena.parent?_push_of_ne (depth ▸ Nat.zero_ne_one)
      refine Tidy.of_functions ((opens.parents _).trans (kept.trans tidy.root)) fun f hf' => ?_
      rw [hf] at hf'
      rw [List.mem_singleton.1 hf']
      rfl
    · cases habs
  | @finish _ f rest hf hnone hend =>
    have tidy := h.of_frames hf
    cases h.framed with
    | running hr =>
      unfold endFrame at hend
      cases hk : f.kind with
      | function =>
        rw [hk] at hend
        exact tidy_finishCall hr (hf ▸ List.cons_ne_nil _ _) tidy hend
      | loop target =>
        rw [hk] at hend
        cases hend
        exact tidy_onTop tidy (fun _ => rfl) (fun _ => rfl) fun _ => rfl
      | block =>
        rw [hk] at hend
        cases hend
        exact tidy_popFrame tidy hr
      | switch =>
        rw [hk] at hend
        cases hend
        exact tidy_popFrame tidy hr
    | idle hf' => cases hf.symm.trans hf'
    | module hf' hk =>
      cases hf.symm.trans hf'
      unfold endFrame at hend
      rw [hk] at hend
      have unwound : Session.unwind t.machine.scopes t.frames = (t.machine.scopes, some (f, [])) := by
        rw [hf, Session.unwind, if_pos hk]
      obtain ⟨hnone, -⟩ | ⟨scopes, g, callers, v, m, hunwind, hvalue, rfl⟩ := finishCall_ok hend
      · rw [unwound] at hnone
        cases hnone
      · rw [unwound] at hunwind
        cases hunwind
        cases hvalue
        exact tidy_endInvocation tidy.root
  | jump hf => exact tidy_onTop (h.of_frames hf) (fun _ => rfl) (fun _ => rfl) fun _ => rfl
  | block hf => exact tidy_opened h hf _ _
  | loop hf => exact tidy_opened h hf _ _

/-- The frame of a module is the only one, before and after a declaration. -/
theorem tidy_module (hf : t.frames = [f]) (hk : f.kind = .function)
    (hd : t.machine.scopes.depth = 1) (ht : Tidy t.machine.scopes t.frames) {d : Declaration}
    (hrun : runVisible s f (.declaration d) t = .ok ((), t')) :
    Tidy t'.machine.scopes t'.frames := by
  obtain ⟨outcome, m, hcommand, hend⟩ := runVisible_ok hf hrun
  have keeps := Exec.keepsStack_command t.config (.declaration d)
    { t.machine with callResults := f.results } outcome m (hd ▸ Nat.one_pos) hcommand
  have root : m.scopes.parent? ScopeArena.root = none := (keeps.parents _).trans ht.root
  have alone : ∀ g ∈ [taken f (.declaration d)], g.kind = .function := fun g hg => by
    rw [List.mem_singleton.1 hg]
    exact hk
  dsimp only at hend
  split at hend
  · rw [hend]
    exact tidy_endInvocation root
  · cases outcome with
    | ok move =>
      obtain rfl := Eval.next_of_declaration hcommand
      cases hend
      exact .of_functions root alone
    | error e =>
      rw [hend]
      exact .of_functions root alone

theorem tidied_visible (h : Tidied s t) {enterCalls : Bool} (hf : t.frames = f :: rest)
    (hc : f.next? = some c) (hrun : visible s enterCalls f c t = .ok ((), t')) : Tidied s t' := by
  refine ⟨framed_visible h.framed hf hc hrun, Or.inr ?_⟩
  have tidy := h.of_frames hf
  cases h.framed with
  | running hr =>
    obtain ⟨call, scope, m, -, -, hm, rfl⟩ | ⟨call, e, m, -, -, hm, hrun⟩ | ⟨-, hrun⟩ :=
      visible_ok hf hrun
    · -- a function is entered: names of open scopes other than the root stay
      have opens : t.machine.Opens ScopeArena.root scope m := Exec.opens_bindPending hr.opened hm
      have root := (opens.parents _).trans (ScopeArena.parent?_push_of_ne hr.opened.ne)
      have kept : Tidy m.scopes t.frames := tidy.congr root fun g hg name hn => by
        refine (opens.names g.scope name (hr.tower.standing.scope_pos hg) ?_).1 hn
        rw [hr.tower.depth]
        exact Nat.lt_succ_of_le (hr.tower.standing.scope_le hg)
      exact ⟨kept.root, List.forall_mem_cons.2 ⟨fun hk => absurd rfl hk, kept.names⟩⟩
    · have kept : KeepsStack none t.machine m := Exec.opens_bindPending hr.opened hm
      have diagnosed : KeepsStack none t.machine (reported m (e.at_ call.line)) :=
        kept.trans (KeepsStack.of_eq none rfl rfl)
      have noted := (hr.retop (g := f.note call.id .void) hf rfl rfl).machine diagnosed
      have kept : Tidy (reported m (e.at_ call.line)).scopes (f :: rest) :=
        hf ▸ Session.tidy_keeps tidy diagnosed
      exact tidy_runVisible noted (kept.retop rfl rfl rfl) rfl hc hrun
    · exact tidy_runVisible hr tidy hf hc hrun
  | idle hf' => cases hf.symm.trans hf'
  | module hf' hk hfun hs hd hp hdecl =>
    obtain ⟨d, rfl⟩ := declaration_of_next hdecl hf' hf hc
    cases hf.symm.trans hf'
    obtain ⟨call, _, m, -, hcall, -⟩ | ⟨call, e, m, -, hcall, -⟩ | ⟨-, hrun⟩ := visible_ok hf hrun
    · cases hcall
    · cases hcall
    · exact tidy_module hf hk hd tidy hrun

theorem tidied_passesAll (h : Tidied s t) (hpasses : Relation.ReflTransGen (Session.Passes s) t t') :
    Tidied s t' := by
  induction hpasses with
  | refl => exact h
  | tail _ hpass ih => exact tidied_passes ih hpass

/-- A dispatch begins with no frame but that of its entry point. -/
theorem tidied_beginDispatch (h : Tidied s t) {entry : String} {workgroups : Extent}
    {groups : BindGroups} {config : Config} {r : Except Fault Unit}
    (hbegin : beginDispatch s entry workgroups groups config t = .ok (r, t')) : Tidied s t' := by
  have framed := framed_beginDispatch h.framed hbegin
  obtain ⟨_, t₀, h₀, h₁⟩ := bind_ok hbegin
  cases h₀
  obtain ⟨outcome, t₁, h₁, h₂⟩ := bind_ok h₁
  obtain ⟨m, hm, rfl⟩ := onMachine_ok h₁
  have prepared : (m = t.machine ∧ ∃ e, outcome = .error e) ∨ (m.scopes.depth = 1 ∧
      m.scopes.parent? ScopeArena.root = none) :=
    (Attempt.depth_prepare hm).imp And.right And.right
  cases outcome with
  | error e =>
    cases h₂
    refine ⟨framed, ?_⟩
    obtain ⟨rfl, -⟩ | ⟨-, hroot⟩ := prepared
    · exact h.tidy.imp (fun none => ⟨rfl, none.2⟩) fun tidy => ⟨tidy.root, nofun⟩
    · exact Or.inr ⟨hroot, nofun⟩
  | ok found =>
    obtain ⟨-, _, habs⟩ | ⟨hdepth, hroot⟩ := prepared
    · cases habs
    obtain ⟨_, t₂, h₃, h₄⟩ := bind_ok h₂
    obtain ⟨b, t₃, h₅, h₆⟩ := bind_ok h₄
    cases h₃
    cases h₆
    refine ⟨framed, Or.inr ?_⟩
    obtain ⟨-, plan, scope, m₁, -, -, hm₁, rfl⟩ | ⟨-, rfl, -⟩ := startInvocation_ok h₅
    · have opens := Exec.opens_beginInvocation (hdepth ▸ Nat.one_pos) hm₁
      have kept : (m.scopes.push ScopeArena.root).1.parent? ScopeArena.root = _ :=
        ScopeArena.parent?_push_of_ne (hdepth ▸ Nat.zero_ne_one)
      refine .of_functions ((opens.parents _).trans (kept.trans hroot)) fun f hf => ?_
      rw [List.mem_singleton.1 hf]
      rfl
    · exact ⟨hroot, nofun⟩

theorem tidied_next (h : Tidied s t) {enterCalls : Bool} {r : Except Fault Bool}
    (hnext : next s enterCalls t = .ok (r, t')) : Tidied s t' := by
  obtain ⟨t₁, hpasses, hstops⟩ := within_ok hnext
  have passed : Tidied s t₁ := tidied_passesAll h hpasses
  cases hstops with
  | ran hf hc _ hrun => exact tidied_visible passed hf hc hrun
  | done => exact passed
  | exhausted => exact passed

end Step

/-! ## Rounds of a loop -/

namespace Session

variable {s : Shader} {t t₀ : Session} {f : Frame} {rest : List Frame}

theorem Reachable.tidied (h : Reachable s t) : Tidied s t := by
  induction h with
  | new hdepth => exact ⟨Reachable.framed (.new hdepth), Or.inl ⟨rfl, rfl⟩⟩
  | beginDispatch _ _ _ _ _ hrun ih => exact Step.tidied_beginDispatch ih hrun
  | beginModule config hr hrun _ =>
    refine ⟨Reachable.framed (.beginModule config hr hrun), Or.inr ?_⟩
    cases hrun
    exact .of_functions rfl fun f hf => by rw [List.mem_singleton.1 hf]
  | next _ _ hrun ih => exact Step.tidied_next ih hrun

/-- Scopes are opened after their parents. -/
theorem Tidied.nested (h : Tidied s t) (hroot : t.machine.scopes.parent? ScopeArena.root = none) :
    t.machine.scopes.Nested := by
  have bottom : t.machine.scopes.depth = 1 → t.machine.scopes.Nested := fun hd id parent hp => by
    have hid := ScopeArena.lt_depth_of_parent? hp
    obtain rfl : id = ScopeArena.root := Nat.lt_one_iff.1 (hd ▸ hid)
    rw [hroot] at hp
    cases hp
  cases h.framed with
  | running hr =>
    intro id parent hp
    obtain rfl | hid := Nat.eq_zero_or_pos id
    · cases hroot.symm.trans hp
    · have hlt := ScopeArena.lt_depth_of_parent? hp
      rw [hr.tower.depth] at hlt
      exact hr.tower.standing.parent_lt hid (Nat.le_of_lt_succ hlt) hp
  | idle _ hd => exact bottom hd
  | module _ _ _ _ hd => exact bottom hd

/-- A frame that is no function stands on another frame, and its scope hangs off the scope of that
one. -/
theorem Framed.outer (h : Framed s t) (hf : t.frames = f :: rest) (hk : f.kind ≠ .function) :
    ∃ outer, rest.head? = some outer ∧ t.machine.scopes.parent? f.scope = some outer.scope := by
  cases h with
  | running hr =>
    have hangs := (hf ▸ hr.tower.standing).hangs [] f rest rfl
    unfold Hangs at hangs
    cases hkind : f.kind with
    | function => exact absurd hkind hk
    | _ =>
      rw [hkind] at hangs
      exact hangs
  | idle hf' => cases hf.symm.trans hf'
  | module hf' hk' =>
    cases hf.symm.trans hf'
    exact absurd hk' hk

/-- Whatever a session comes to inside a step: the scope of a loop holds at most names that the
commands of the loop declare themselves, and any other name resolves in it as it does in the frame
around the loop. When a loop is entered its scope holds no name at all. -/
theorem Reachable.round_names (h : Reachable s t₀) (hp : Relation.ReflTransGen (Passes s) t₀ t)
    (hf : t.frames = f :: rest) :
    (∀ target, f.kind = .loop target →
      (∀ name, t.machine.scopes.Binds f.scope name → name ∈ Command.declared f.commands) ∧
      ∃ outer, rest.head? = some outer ∧ ∀ name ∉ Command.declared f.commands,
        t.machine.scopes.lookup f.scope name = t.machine.scopes.lookup outer.scope name) ∧
    (∀ commands target, f.next? = some (.loop commands target) → ∃ t' inner,
      Passes s t t' ∧ t'.frames = inner :: f.advanced :: rest ∧ inner.kind = .loop target ∧
      inner.commands = commands ∧ inner.cursor = 0 ∧
      ∀ name, ¬t'.machine.scopes.Binds inner.scope name) := by
  have tidied : Tidied s t := Step.tidied_passesAll h.tidied hp
  have tidy := tidied.of_frames hf
  refine ⟨fun target hk => ?_, fun commands target hnext => ?_⟩
  · have inner : f.kind ≠ .function := by
      rw [hk]
      nofun
    have own := tidy.names f (hf ▸ .head _) inner
    obtain ⟨outer, hhead, hparent⟩ := tidied.framed.outer hf inner
    refine ⟨own, outer, hhead, fun name hname => ?_⟩
    have unbound : t.machine.scopes.findIn? f.scope name = none :=
      Option.not_isSome_iff_eq_none.1 fun hb => hname (own name hb)
    rw [(tidied.nested tidy.root).lookup_of_none unbound, hparent]
    rfl
  · let inner : Frame := {
      kind := .loop target
      name := f.name
      function := f.function
      commands
      scope := t.machine.scopes.depth
      line := f.line }
    have entered : (t.onTop Frame.advanced).pushFrame (.loop target) commands =
        { t.withScopes (t.machine.scopes.push f.scope).1 with
          frames := inner :: f.advanced :: rest } := by
      unfold Session.pushFrame Session.onTop
      rw [hf]
      rfl
    refine ⟨_, inner, .loop hf hnext, ?_, rfl, rfl, rfl, fun name hb => ?_⟩
    · rw [entered]
    · rw [entered] at hb
      exact ScopeArena.not_binds_of_depth_le (Nat.le_refl _) (ScopeArena.binds_push.1 hb)

/-- A loop at the end of its commands begins again. -/
theorem Passes.again (hf : t.frames = f :: rest) {target : Nat} (hk : f.kind = .loop target)
    (hnone : f.next? = none) : Passes s t { t with frames := { f with cursor := 0 } :: rest } := by
  refine .finish hf hnone ?_
  obtain ⟨kind, name, function, commands, cursor, scope, call, results, line⟩ := f
  subst hk
  change Except.ok ((), t.onTop _) = _
  unfold Session.onTop
  rw [hf]

/-- The body `loop { let lit = true; }`. -/
def litLoop : Stmt :=
  .loop 2 [.simple ⟨3, .declare .let_
    ⟨"lit", none, none, none, some (.literal ⟨0, 3⟩ (.bool true)), [], 3⟩⟩] none

/-- After its first round the loop has declared `lit` and stands at its end. -/
theorem litLoop_round : ∃ t f rest, Reachable (Shader.ofBody [litLoop]) t ∧ t.frames = f :: rest ∧
    f.kind = .loop 1 ∧ f.next? = none ∧ Command.declared f.commands = ["lit"] ∧
    t.machine.scopes.Binds f.scope "lit" := by
  let m : Machine := { layouts := .ofProgram (Shader.ofBody [litLoop]).program }
  have fresh : Reachable (Shader.ofBody [litLoop]) { machine := m } := .new rfl
  have begun : Reachable (Shader.ofBody [litLoop]) _ :=
    .beginDispatch "main" ⟨1, 1, 1⟩ {} [] fresh rfl
  have stepped : Reachable (Shader.ofBody [litLoop]) _ := .next false begun rfl
  refine ⟨_, _, _, stepped, rfl, rfl, rfl, rfl, ?_⟩
  unfold ScopeArena.Binds
  decide +kernel

/-- The second round of `loop { let lit = true; }` begins with no name but `lit`, and other names
resolve as they do around the loop. -/
theorem Reachable.round_names_lit : ∃ t₀ t f rest, Reachable (Shader.ofBody [litLoop]) t₀ ∧
    Relation.ReflTransGen (Passes (Shader.ofBody [litLoop])) t₀ t ∧ t.frames = f :: rest ∧
    f.kind = .loop 1 ∧ f.cursor = 0 ∧
    (∀ name, t.machine.scopes.Binds f.scope name → name ∈ ["lit"]) ∧
    ∃ outer, rest.head? = some outer ∧ ∀ name ∉ ["lit"],
      t.machine.scopes.lookup f.scope name = t.machine.scopes.lookup outer.scope name := by
  obtain ⟨t₀, f, rest, reachable, hf, hk, hnone, hdeclared, -⟩ := litLoop_round
  have passes := Relation.ReflTransGen.single
    (Passes.again (s := Shader.ofBody [litLoop]) hf hk hnone)
  have names := (round_names reachable passes rfl).1 1 hk
  rw [hdeclared] at names
  exact ⟨t₀, _, _, rest, reachable, passes, rfl, hk, rfl, names⟩

/-- The second round of `loop { let lit = true; }` begins with the name that the first declared. -/
theorem Reachable.stale_name : ∃ t₀ t f rest, Reachable (Shader.ofBody [litLoop]) t₀ ∧
    Passes (Shader.ofBody [litLoop]) t₀ t ∧ t.frames = f :: rest ∧ f.kind = .loop 1 ∧
    f.cursor = 0 ∧ t.machine.scopes.Binds f.scope "lit" := by
  obtain ⟨t₀, f, rest, reachable, hf, hk, hnone, -, hbinds⟩ := litLoop_round
  exact ⟨t₀, _, _, rest, reachable, .again hf hk hnone, rfl, hk, rfl, hbinds⟩

end Session

end Wgsl
