import Wgsl.Proofs.Stepper.Frames

/-! # The command that a session announces

Between steps a session says which command comes next. It looks for that command in the lists of its
frames, without running anything; a step finds it by running all that shows nothing.

* `Outlook.path`: the positions that the search passes in one list. A search that ends passes no
  position twice, so its budget is large enough (`Outlook.follow_saturated`).
* `Session.upcoming?`: the first command shown when the frames are left one after another, a loop
  being begun again.
* `Session.upcoming?_of_next`: this is the command that a step runs.
* `Session.currentCommand?_of_next`: what is announced is that command, unless a loop stands before
  its end with nothing left to show.
-/

namespace Wgsl
set_option autoImplicit false

/-! ## Searching one list -/

namespace Outlook

variable {outlooks : List Outlook} {i j k n p q target : Nat} {info : CommandInfo}

/-- Where a search goes on that finds nothing at a position. -/
def hop (outlooks : List Outlook) (p : Nat) : Option Nat :=
  match outlooks[p]? with
  | some (.jump target) => some target
  | some (.shown none) => some (p + 1)
  | _ => none

/-- What a search finds at a position. -/
def found (outlooks : List Outlook) (p : Nat) : Option CommandInfo :=
  match outlooks[p]? with
  | some (.shown info) => info
  | _ => none

/-- The position after a number of hops. -/
def path (outlooks : List Outlook) : Nat → Nat → Option Nat
  | 0, p => some p
  | n + 1, p => (hop outlooks p).bind (path outlooks n)

theorem path_add (m n p : Nat) :
    path outlooks (m + n) p = (path outlooks m p).bind (path outlooks n) := by
  induction m generalizing p with
  | zero => rw [Nat.zero_add, path, Option.bind_some]
  | succ m ih =>
    rw [Nat.succ_add, path, path]
    cases hop outlooks p with
    | none => rfl
    | some q =>
      rw [Option.bind_some, Option.bind_some]
      exact ih q

/-- What is found is found after fewer hops than the budget allows. -/
theorem follow_eq_some : follow outlooks n p = some info ↔
    ∃ j < n, ∃ q, path outlooks j p = some q ∧ found outlooks q = some info := by
  induction n generalizing p with
  | zero => exact ⟨nofun, fun ⟨_, h, _⟩ => absurd h (Nat.not_lt_zero _)⟩
  | succ n ih =>
    have onward : ∀ {target}, hop outlooks p = some target → found outlooks p = none →
        ((∃ j < n, ∃ q, path outlooks j target = some q ∧ found outlooks q = some info) ↔
          ∃ j < n + 1, ∃ q, path outlooks j p = some q ∧ found outlooks q = some info) := by
      intro target hhop hnone
      constructor
      · rintro ⟨j, hj, q, hq, hfound⟩
        exact ⟨j + 1, Nat.succ_lt_succ hj, q, by rw [path, hhop]; exact hq, hfound⟩
      · rintro ⟨j, hj, q, hq, hfound⟩
        cases j with
        | zero =>
          cases hq
          rw [hnone] at hfound
          cases hfound
        | succ j =>
          rw [path, hhop] at hq
          exact ⟨j, Nat.lt_of_succ_lt_succ hj, q, hq, hfound⟩
    have ends : hop outlooks p = none → found outlooks p = follow outlooks (n + 1) p →
        (follow outlooks (n + 1) p = some info ↔
          ∃ j < n + 1, ∃ q, path outlooks j p = some q ∧ found outlooks q = some info) := by
      intro hhop hhere
      constructor
      · intro h
        exact ⟨0, Nat.succ_pos n, p, rfl, hhere.trans h⟩
      · rintro ⟨j, -, q, hq, hfound⟩
        cases j with
        | zero =>
          cases hq
          exact hhere.symm.trans hfound
        | succ j =>
          rw [path, hhop] at hq
          cases hq
    cases h : outlooks[p]? with
    | none => exact ends (by rw [hop, h]) (by rw [found, follow, h])
    | some o =>
      cases o with
      | jump target =>
        rw [follow, h]
        exact ih.trans (onward (by rw [hop, h]) (by rw [found, h]))
      | shown info? =>
        cases info? with
        | some i => exact ends (by rw [hop, h]) (by rw [found, follow, h])
        | none =>
          rw [follow, h]
          exact ih.trans (onward (by rw [hop, h]) (by rw [found, h]))

theorem lt_of_hop (h : hop outlooks p = some q) : p < outlooks.length := by
  by_contra hlt
  rw [hop, List.getElem?_eq_none (Nat.le_of_not_lt hlt)] at h
  cases h

theorem lt_of_found (h : found outlooks p = some info) : p < outlooks.length := by
  by_contra hlt
  rw [found, List.getElem?_eq_none (Nat.le_of_not_lt hlt)] at h
  cases h

/-- A search that ends has passed positions of the list. -/
theorem path_before (hq : path outlooks j p = some q) (hk : k < j) :
    ∃ r, path outlooks k p = some r ∧ r < outlooks.length := by
  obtain ⟨d, rfl⟩ : ∃ d, j = k + (d + 1) := ⟨j - k - 1, by omega⟩
  rw [path_add] at hq
  cases hr : path outlooks k p with
  | none =>
    rw [hr] at hq
    cases hq
  | some r =>
    rw [hr, Option.bind_some, path] at hq
    refine ⟨r, rfl, ?_⟩
    cases hh : hop outlooks r with
    | none =>
      rw [hh] at hq
      cases hq
    | some s => exact lt_of_hop hh

/-- Two visits of one position cut the search short. -/
theorem path_shortcut (hj : j ≤ k) (hsame : path outlooks i p = path outlooks j p) :
    path outlooks (i + (k - j)) p = path outlooks k p := by
  rw [path_add, hsame, ← path_add, Nat.add_sub_cancel' hj]

/-- What can be found is found after fewer hops than there are positions. -/
theorem path_short (k : Nat) (hq : path outlooks k p = some q)
    (hfound : found outlooks q = some info) :
    ∃ j < outlooks.length, path outlooks j p = some q := by
  induction k using Nat.strong_induction_on with
  | _ k ih =>
    by_cases hk : k < outlooks.length
    · exact ⟨k, hk, hq⟩
    -- more visits than positions, so some position is visited twice
    have visit : ∀ i : Fin (k + 1), ∃ r : Fin outlooks.length,
        path outlooks i p = some r.1 := by
      intro i
      by_cases hi : i.1 < k
      · obtain ⟨r, hr, hlt⟩ := path_before hq hi
        exact ⟨⟨r, hlt⟩, hr⟩
      · have hi : i.1 = k := Nat.le_antisymm (Nat.le_of_lt_succ i.2) (Nat.le_of_not_lt hi)
        exact ⟨⟨q, lt_of_found hfound⟩, by rw [hi, hq]⟩
    choose visited hvisited using visit
    have crowded : Fintype.card (Fin outlooks.length) < Fintype.card (Fin (k + 1)) := by
      rw [Fintype.card_fin, Fintype.card_fin]
      exact Nat.lt_succ_of_le (Nat.le_of_not_lt hk)
    obtain ⟨a, b, hne, hsame⟩ := Fintype.exists_ne_map_eq_of_card_lt visited crowded
    have cut : ∀ a b : Fin (k + 1), visited a = visited b → a.1 < b.1 →
        ∃ j < outlooks.length, path outlooks j p = some q := by
      intro a b hsame hlt
      have hb : b.1 ≤ k := Nat.le_of_lt_succ b.2
      have same : path outlooks a p = path outlooks b p := by
        rw [hvisited, hvisited, hsame]
      exact ih (a.1 + (k - b.1)) (by omega) ((path_shortcut hb same).trans hq)
    obtain hlt | hlt := Nat.lt_or_gt_of_ne fun e => hne (Fin.ext e)
    · exact cut a b hsame hlt
    · exact cut b a hsame.symm hlt

/-- A budget of one for each position is as good as any larger one. -/
theorem follow_saturated (hn : outlooks.length ≤ n) (hk : outlooks.length ≤ k) :
    follow outlooks n p = follow outlooks k p := by
  have grows : ∀ {n k}, outlooks.length ≤ k → ∀ info, follow outlooks n p = some info →
      follow outlooks k p = some info := by
    intro n k hk info h
    obtain ⟨j, -, q, hq, hfound⟩ := follow_eq_some.1 h
    obtain ⟨j, hj, hq⟩ := path_short j hq hfound
    exact follow_eq_some.2 ⟨j, Nat.lt_of_lt_of_le hj hk, q, hq, hfound⟩
  exact Option.ext fun info => ⟨grows hk info, grows hn info⟩

theorem firstFrom_jump (h : outlooks[p]? = some (.jump target)) :
    firstFrom outlooks p = firstFrom outlooks target := by
  rw [firstFrom, follow, h]
  exact follow_saturated (Nat.le_refl _) (Nat.le_succ _)

theorem firstFrom_shown {info? : Option CommandInfo} (h : outlooks[p]? = some (.shown info?)) :
    firstFrom outlooks p = info?.or (firstFrom outlooks (p + 1)) := by
  rw [firstFrom, follow, h]
  cases info? with
  | some info => rfl
  | none => exact follow_saturated (Nat.le_refl _) (Nat.le_succ _)

theorem firstFrom_end (h : outlooks[p]? = none) : firstFrom outlooks p = none := by
  rw [firstFrom, follow, h]

end Outlook

namespace Command

variable {commands inner : List Command} {p target : Nat} {c : Command}

theorem getElem?_outlooks (commands : List Command) (p : Nat) :
    (outlooks commands)[p]? = commands[p]?.map outlook := by
  induction commands generalizing p with
  | nil => rfl
  | cons c rest ih =>
    change (outlook c :: outlooks rest)[p]? = _
    cases p with
    | zero => rfl
    | succ p => exact ih p

theorem nextShown?_end (h : commands[p]? = none) : nextShown? commands p = none :=
  Outlook.firstFrom_end (by rw [getElem?_outlooks, h]; rfl)

theorem nextShown?_jump (h : commands[p]? = some (.jump target)) :
    nextShown? commands p = nextShown? commands target :=
  Outlook.firstFrom_jump (by rw [getElem?_outlooks, h]; rfl)

theorem nextShown?_block (h : commands[p]? = some (.block inner)) :
    nextShown? commands p = (nextShown? inner 0).or (nextShown? commands (p + 1)) :=
  Outlook.firstFrom_shown (by rw [getElem?_outlooks, h]; rfl)

theorem nextShown?_loop (h : commands[p]? = some (.loop inner target)) :
    nextShown? commands p = (nextShown? inner 0).or (nextShown? commands (p + 1)) :=
  Outlook.firstFrom_shown (by rw [getElem?_outlooks, h]; rfl)

theorem nextShown?_shows (h : commands[p]? = some c) (hc : c.shows = true) :
    nextShown? commands p = some ⟨c.line, c.text⟩ := by
  have shown : (outlooks commands)[p]? = some (.shown (some ⟨c.line, c.text⟩)) := by
    rw [getElem?_outlooks, h, Option.map_some]
    cases c <;> first | rfl | cases hc
  exact Outlook.firstFrom_shown shown

end Command

/-! ## Searching the frames -/

namespace Session

variable {s : Shader} {t t' : Session} {f : Frame} {rest frames : List Frame} {c : Command}

/-- The first command shown when frames are left one after another; a loop begins again. -/
def upcomingIn? : List Frame → Option (Option CommandInfo)
  | [] => none
  | f :: rest =>
    match Command.nextShown? f.commands f.cursor with
    | some info => some (some info)
    | none =>
      match f.kind with
      | .loop _ => some (Command.nextShown? f.commands 0)
      | _ => upcomingIn? rest

/-- The first command of the next invocation, if there is one. -/
def nextInvocation? (t : Session) : Option CommandInfo :=
  match t.plan with
  | some plan =>
    if t.nextInvocation < plan.invocationCount then Command.nextShown? plan.entry.commands 0
    else none
  | none => none

/-- The first command shown in the frames, or else in the next invocation. -/
def upcoming? (t : Session) : Option CommandInfo :=
  (upcomingIn? t.frames).getD t.nextInvocation?

theorem currentCommand?_eq (t : Session) :
    t.currentCommand? = (nextInFrames? t.frames).getD t.nextInvocation? := by
  unfold currentCommand?
  cases nextInFrames? t.frames <;> rfl

/-- The innermost loop that the frames lead to shows nothing at all. -/
def Trapped (t : Session) : Prop := upcomingIn? t.frames = some none

theorem upcomingIn?_cons : upcomingIn? (f :: rest) =
    match Command.nextShown? f.commands f.cursor with
    | some info => some (some info)
    | none =>
      match f.kind with
      | .loop _ => some (Command.nextShown? f.commands 0)
      | _ => upcomingIn? rest := rfl

theorem upcomingIn?_of_shown {info : CommandInfo}
    (h : Command.nextShown? f.commands f.cursor = some info) :
    upcomingIn? (f :: rest) = some (some info) := by
  rw [upcomingIn?_cons, h]

theorem upcomingIn?_of_loop {target : Nat} (hk : f.kind = .loop target)
    (h : Command.nextShown? f.commands f.cursor = none) :
    upcomingIn? (f :: rest) = some (Command.nextShown? f.commands 0) := by
  rw [upcomingIn?_cons, h, hk]

theorem upcomingIn?_of_other (hk : ∀ target, f.kind ≠ .loop target)
    (h : Command.nextShown? f.commands f.cursor = none) :
    upcomingIn? (f :: rest) = upcomingIn? rest := by
  rw [upcomingIn?_cons, h]
  cases hkind : f.kind with
  | loop target => exact absurd hkind (hk target)
  | _ => rfl

/-- Frames that agree in what they run stand alike. -/
theorem upcomingIn?_congr {g : Frame} (hk : g.kind = f.kind)
    (hn : Command.nextShown? g.commands g.cursor = Command.nextShown? f.commands f.cursor)
    (hc : g.commands = f.commands) : upcomingIn? (g :: rest) = upcomingIn? (f :: rest) := by
  rw [upcomingIn?_cons, upcomingIn?_cons, hn, hk, hc]

/-! ## What is passed over changes nothing -/

/-- A frame that is entered stands before what the frame around it would show next. -/
theorem upcomingIn?_enter {kind : FrameKind} {inner : List Command} {g : Frame}
    (hk : kind ≠ .function) (hg : g.kind = kind) (hgc : g.commands = inner) (hg₀ : g.cursor = 0)
    (hnext : Command.nextShown? f.commands f.cursor =
      (Command.nextShown? inner 0).or (Command.nextShown? f.commands (f.cursor + 1)))
    (hopen : ∀ target, kind = .loop target → Command.nextShown? inner 0 ≠ none) :
    upcomingIn? (g :: f.advanced :: rest) = upcomingIn? (f :: rest) := by
  subst hg hgc
  cases hi : Command.nextShown? g.commands 0 with
  | some info =>
    rw [hi, Option.some_or] at hnext
    rw [upcomingIn?_of_shown hnext, upcomingIn?_of_shown (hg₀.symm ▸ hi)]
  | none =>
    rw [hi, Option.none_or] at hnext
    rw [upcomingIn?_of_other (fun target h => hopen target h hi) (hg₀.symm ▸ hi)]
    exact upcomingIn?_congr rfl hnext.symm rfl

theorem onTop_eq {change : Frame → Frame} (hf : t.frames = f :: rest) :
    t.onTop change = { t with frames := change f :: rest } := by
  unfold onTop
  rw [hf]

/-- Passing over a command of the frames leaves the search for the next one as it is. -/
structure Alike (t t' : Session) : Prop where
  frames : upcomingIn? t'.frames = upcomingIn? t.frames
  plan : t'.plan = t.plan
  nextInvocation : t'.nextInvocation = t.nextInvocation

theorem Alike.upcoming? (h : Alike t t') : t'.upcoming? = t.upcoming? := by
  unfold Session.upcoming? nextInvocation?
  rw [h.frames, h.plan, h.nextInvocation]

theorem alike_pushFrame {kind : FrameKind} {inner : List Command} (hf : t.frames = f :: rest)
    (hk : kind ≠ .function)
    (hnext : Command.nextShown? f.commands f.cursor =
      (Command.nextShown? inner 0).or (Command.nextShown? f.commands (f.cursor + 1)))
    (hopen : ∀ target, kind = .loop target → Command.nextShown? inner 0 ≠ none) :
    Alike t ((t.onTop Frame.advanced).pushFrame kind inner) := by
  rw [onTop_eq hf]
  refine ⟨?_, rfl, rfl⟩
  rw [hf]
  exact upcomingIn?_enter hk rfl rfl rfl hnext hopen

/-- The frame of a function leads to the frame that called it. -/
theorem alike_finishCall (hf : t.frames = f :: rest) (hk : f.kind = .function)
    (hnone : Command.nextShown? f.commands f.cursor = none)
    (hend : Step.finishCall none t = .ok ((), t')) : Alike t t' := by
  have unwound : unwind t.machine.scopes t.frames = (t.machine.scopes, some (f, rest)) := by
    rw [hf, unwind, if_pos hk]
  have left : upcomingIn? t.frames = upcomingIn? rest := by
    rw [hf]
    exact upcomingIn?_of_other (fun target h => by rw [hk] at h; cases h) hnone
  obtain ⟨habs, -⟩ | ⟨scopes, g, callers, v, m, hunwind, -, rfl⟩ := Step.finishCall_ok hend
  · rw [unwound] at habs
    cases habs
  · rw [unwound] at hunwind
    cases hunwind
    cases rest with
    | nil => exact ⟨left.symm, rfl, rfl⟩
    | cons caller callers =>
      rw [if_neg (List.cons_ne_nil _ _), onTop_eq rfl]
      refine ⟨(upcomingIn?_congr ?_ ?_ ?_).trans left.symm, rfl, rfl⟩ <;> cases f.call <;> rfl

theorem alike_endFrame (hf : t.frames = f :: rest) (hnext : f.next? = none)
    (hend : Step.endFrame f t = .ok ((), t')) : Alike t t' := by
  have hnone : Command.nextShown? f.commands f.cursor = none := Command.nextShown?_end hnext
  have popped : (∀ target, f.kind ≠ .loop target) → Alike t t.popFrame := by
    intro hk
    unfold popFrame
    rw [hf]
    refine ⟨?_, rfl, rfl⟩
    rw [hf]
    exact (upcomingIn?_of_other hk hnone).symm
  unfold Step.endFrame at hend
  cases hk : f.kind with
  | function =>
    rw [hk] at hend
    exact alike_finishCall hf hk hnone hend
  | block =>
    rw [hk] at hend
    cases hend
    exact popped (by rw [hk]; nofun)
  | switch =>
    rw [hk] at hend
    cases hend
    exact popped (by rw [hk]; nofun)
  | loop target =>
    rw [hk] at hend
    cases hend
    rw [onTop_eq hf]
    refine ⟨?_, rfl, rfl⟩
    rw [hf, upcomingIn?_of_loop hk hnone]
    cases hstart : Command.nextShown? f.commands 0 with
    | some info => exact upcomingIn?_of_shown hstart
    | none =>
      exact (upcomingIn?_of_loop (f := { f with cursor := 0 }) hk hstart).trans (congrArg some hstart)

/-- An invocation begins with what was announced of it. -/
theorem upcoming?_startInvocation (hf : t.frames = [])
    (hstart : Step.startInvocation s t = .ok (true, t')) : t'.upcoming? = t.upcoming? := by
  obtain ⟨-, plan, scope, m, hp, hleft, -, rfl⟩ | ⟨habs, -⟩ := Step.startInvocation_ok hstart
  · have before : t.upcoming? = Command.nextShown? plan.entry.commands 0 := by
      rw [Session.upcoming?, hf, upcomingIn?, Option.getD_none, nextInvocation?, hp]
      exact if_pos hleft
    rw [before]
    unfold Session.upcoming?
    rw [hf]
    cases hshown : Command.nextShown? plan.entry.commands 0 with
    | some info =>
      rw [upcomingIn?_of_shown (f := Step.entryFrame plan scope) hshown]
      rfl
    | none =>
      rw [upcomingIn?_of_other (f := Step.entryFrame plan scope) nofun hshown]
      -- an entry point that shows nothing shows nothing in later invocations either
      rw [upcomingIn?, Option.getD_none, nextInvocation?]
      dsimp only
      rw [hp]
      dsimp only
      rw [hshown, ite_self]
  · cases habs

/-- What is passed over either changes nothing in the search, or leads into a loop without end. -/
theorem passes_cases (h : Passes s t t') : t'.Trapped ∨ Alike t t' ∨
    (t.frames = [] ∧ t'.upcoming? = t.upcoming?) := by
  cases h with
  | start hf hstart => exact Or.inr (Or.inr ⟨hf, upcoming?_startInvocation hf hstart⟩)
  | finish hf hnext hend => exact Or.inr (Or.inl (alike_endFrame hf hnext hend))
  | jump hf hc =>
    refine Or.inr (Or.inl ?_)
    rw [onTop_eq hf]
    refine ⟨?_, rfl, rfl⟩
    rw [hf]
    exact upcomingIn?_congr rfl (Command.nextShown?_jump hc).symm rfl
  | block hf hc =>
    exact Or.inr (Or.inl (alike_pushFrame hf nofun (Command.nextShown?_block hc) nofun))
  | @loop f rest inner target hf hc =>
    cases hopen : Command.nextShown? inner 0 with
    | some info =>
      refine Or.inr (Or.inl (alike_pushFrame hf nofun (Command.nextShown?_loop hc) fun _ _ => ?_))
      rw [hopen]
      nofun
    | none =>
      refine Or.inl ?_
      rw [onTop_eq hf]
      exact (upcomingIn?_of_loop rfl hopen).trans (congrArg some hopen)

/-- From a loop that shows nothing a step never gets out. -/
theorem trapped_passes (h : Passes s t t') (ht : t.Trapped) : t'.Trapped := by
  obtain hloop | halike | ⟨hf, -⟩ := passes_cases h
  · exact hloop
  · exact halike.frames.trans ht
  · rw [Trapped, hf] at ht
    cases ht

theorem upcoming?_passes (h : Passes s t t') (ht : ¬t'.Trapped) : t'.upcoming? = t.upcoming? := by
  obtain hloop | halike | ⟨-, hstart⟩ := passes_cases h
  · exact absurd hloop ht
  · exact halike.upcoming?
  · exact hstart

/-- All that a step passes over leaves the next command as it is, if the step comes to an end. -/
theorem upcoming?_passesAll (h : Relation.ReflTransGen (Passes s) t t') (ht : ¬t'.Trapped) :
    ¬t.Trapped ∧ t'.upcoming? = t.upcoming? := by
  induction h using Relation.ReflTransGen.head_induction_on with
  | refl => exact ⟨ht, rfl⟩
  | head hpass _ ih =>
    exact ⟨fun h => ih.1 (trapped_passes hpass h), ih.2.trans (upcoming?_passes hpass ih.1)⟩

/-! ## What a step runs -/

/-- A step comes to this command and runs it. -/
def Runs (s : Shader) (t : Session) (c : Command) (t' : Session) : Prop :=
  ∃ t₁ f rest, Relation.ReflTransGen (Passes s) t t₁ ∧ t₁.frames = f :: rest ∧
    f.next? = some c ∧ c.shows = true ∧ Step.runVisible s f c t₁ = .ok ((), t')

/-- A step that ends runs the upcoming command, or there is none. -/
theorem upcoming?_of_next {ran : Bool} (h : Step.next s false t = .ok (.ok ran, t')) :
    ¬t.Trapped ∧ if ran then ∃ c, t.Runs s c t' ∧ t.upcoming? = some ⟨c.line, c.text⟩
      else t.upcoming? = none := by
  obtain ⟨t₁, hpasses, hstops⟩ := Step.within_ok h
  cases hstops with
  | @ran _ f rest c hf hc hshows hrun =>
    have hinfo : upcomingIn? (f :: rest) = some (some ⟨c.line, c.text⟩) :=
      upcomingIn?_of_shown (Command.nextShown?_shows hc hshows)
    have free : ¬t₁.Trapped := by
      rw [Trapped, hf, hinfo]
      nofun
    obtain ⟨hfree, heq⟩ := upcoming?_passesAll hpasses free
    refine ⟨hfree, c, ?_, ?_⟩
    · obtain ⟨_, _, _, habs, -⟩ | ⟨_, _, _, habs, -⟩ | ⟨-, hrun⟩ := Step.visible_ok hf hrun
      · cases habs
      · cases habs
      · exact ⟨t₁, f, rest, hpasses, hf, hc, hshows, hrun⟩
    · rw [← heq, Session.upcoming?, hf, hinfo]
      rfl
  | done hf hstart =>
    have free : ¬t'.Trapped := by
      rw [Trapped, hf]
      nofun
    obtain ⟨hfree, heq⟩ := upcoming?_passesAll hpasses free
    refine ⟨hfree, ?_⟩
    rw [if_neg Bool.false_ne_true, ← heq, Session.upcoming?, hf, nextInvocation?]
    obtain ⟨habs, -⟩ | ⟨-, -, hspent⟩ := Step.startInvocation_ok hstart
    · cases habs
    · cases hp : t'.plan with
      | none => rfl
      | some plan => exact if_neg (Nat.not_lt_of_le (hspent plan hp))

/-- Going outward to the first frame that has something left to show, no loop is met before the end
of its commands. -/
def GoesOn : List Frame → Prop
  | [] => True
  | f :: rest => Command.nextShown? f.commands f.cursor = none →
    match f.kind with
    | .loop _ => f.commands.length ≤ f.cursor
    | _ => GoesOn rest

/-- The frames that a step may leave hold no loop that it would begin again too early. -/
def LoopsGoOn (t : Session) : Prop := GoesOn t.frames

/-- At the end of its commands a frame has nothing to show. -/
theorem nextShown?_of_le (h : ¬f.cursor < f.commands.length) :
    Command.nextShown? f.commands f.cursor = none :=
  Command.nextShown?_end (List.getElem?_eq_none (Nat.le_of_not_lt h))

theorem nextInFrames?_of_goesOn (h : GoesOn frames) : nextInFrames? frames = upcomingIn? frames := by
  induction frames with
  | nil => rfl
  | cons f rest ih =>
    rw [GoesOn] at h
    rw [nextInFrames?, upcomingIn?]
    split
    · rename_i hlt
      cases hshown : Command.nextShown? f.commands f.cursor with
      | some info => rfl
      | none =>
        have hrest := h hshown
        cases hk : f.kind with
        | loop target =>
          rw [hk] at hrest
          exact absurd hlt (Nat.not_lt.2 hrest)
        | _ =>
          rw [hk] at hrest
          exact ih hrest
    · rename_i hge
      have hnone := nextShown?_of_le hge
      have hrest := h hnone
      rw [hnone]
      cases hk : f.kind with
      | loop target => rfl
      | _ =>
        rw [hk] at hrest
        exact ih hrest

/-- Where no frame decides, none announces anything. -/
theorem nextInFrames?_of_undecided (h : upcomingIn? frames = none) : nextInFrames? frames = none := by
  rw [← h]
  refine nextInFrames?_of_goesOn ?_
  induction frames with
  | nil => trivial
  | cons f rest ih =>
    intro hnone
    rw [upcomingIn?_cons, hnone] at h
    cases hk : f.kind with
    | loop target =>
      rw [hk] at h
      cases h
    | _ =>
      rw [hk] at h
      exact ih h

/-- What is announced before a step that runs a command is this command, provided that going outward
to it no loop is met before the end of its commands; before a step that runs none, nothing is
announced. -/
theorem currentCommand?_of_next {ran : Bool} (h : (Step.next s false).run t = .ok (.ok ran, t')) :
    if ran then ∃ c, t.Runs s c t' ∧ t.upcoming? = some ⟨c.line, c.text⟩ ∧
      (t.LoopsGoOn → t.currentCommand? = some ⟨c.line, c.text⟩)
    else t.currentCommand? = none := by
  obtain ⟨hfree, hnext⟩ := upcoming?_of_next h
  rw [currentCommand?_eq]
  cases ran with
  | true =>
    obtain ⟨c, hruns, hinfo⟩ := hnext
    refine ⟨c, hruns, hinfo, fun hgo => ?_⟩
    rw [nextInFrames?_of_goesOn hgo]
    exact hinfo
  | false =>
    have hnone : t.upcoming? = none := hnext
    have undecided : upcomingIn? t.frames = none := by
      rw [Session.upcoming?] at hnone
      cases hin : upcomingIn? t.frames with
      | none => rfl
      | some info? =>
        cases info? with
        | none => exact absurd hin hfree
        | some info =>
          rw [hin] at hnone
          cases hnone
    show (nextInFrames? t.frames).getD t.nextInvocation? = none
    rw [nextInFrames?_of_undecided undecided, ← hnone, Session.upcoming?, undecided]

/-- The entry point `{ loop { if (true) { _ = true; } } _ = false; }`. -/
def loopShader : Shader :=
  let lit (line : Nat) (b : Bool) : Expr := .literal ⟨0, line⟩ (.bool b)
  Shader.ofBody [
    .loop 2 [.ifElse 3 (lit 3 true) [.simple ⟨4, .assign .plain none (lit 4 true)⟩] .none] none,
    .simple ⟨7, .assign .plain none (lit 7 false)⟩]

/-- What is announced after some steps, what the next step runs, and whether it runs anything. -/
def announced (s : Shader) (steps : List Bool) :
    Except Fault ((Option Nat × Option Nat) × Except Fault Bool) := do
  let t ← after s steps
  let r ← (Step.next s false).run t
  return ((t.currentCommand?.map CommandInfo.line, t.upcoming?.map CommandInfo.line), r.1)

theorem of_announced {s : Shader} {steps : List Bool} {current upcoming : Option Nat} {ran : Bool}
    (h : (announced s steps).toOption.map (fun r => (r.1, r.2.toOption)) =
      some ((current, upcoming), some ran)) :
    ∃ t t', Reachable s t ∧ t.currentCommand?.map CommandInfo.line = current ∧
      t.upcoming?.map CommandInfo.line = upcoming ∧ (Step.next s false).run t = .ok (.ok ran, t') := by
  obtain ⟨⟨lines, outcome⟩, hrun, h⟩ := Option.map_eq_some_iff.1 h
  obtain ⟨rfl, hran⟩ := Prod.ext_iff.1 h
  cases hannounced : announced s steps with
  | error e =>
    rw [hannounced] at hrun
    cases hrun
  | ok r =>
    rw [hannounced] at hrun
    cases hrun
    obtain ⟨t, ht, hannounced⟩ := Fault.bind_ok hannounced
    obtain ⟨⟨outcome', t'⟩, hstep, hannounced⟩ := Fault.bind_ok hannounced
    cases hannounced
    cases outcome' with
    | error e => cases hran
    | ok ran' =>
      cases hran
      exact ⟨t, t', reachable_of_after ht, rfl, rfl, hstep⟩

/-- Before the first step the condition in the loop is announced. -/
theorem currentCommand?_of_next_loop : ∃ t t', Reachable loopShader t ∧
    (Step.next loopShader false).run t = .ok (.ok true, t') ∧
    ∃ c, t.Runs loopShader c t' ∧ t.upcoming? = some ⟨c.line, c.text⟩ ∧
      (t.LoopsGoOn → t.currentCommand? = some ⟨c.line, c.text⟩) := by
  have ran : (announced loopShader []).toOption.map (fun r => (r.1, r.2.toOption)) =
      some ((some 3, some 3), some true) := by decide +kernel
  obtain ⟨t, t', ht, -, -, hstep⟩ := of_announced ran
  exact ⟨t, t', ht, hstep, currentCommand?_of_next hstep⟩

/-- After the body of the `if` the statement behind the loop is announced, but the step runs the
condition again. -/
theorem misannounced_loop : ∃ t t' c, Reachable loopShader t ∧
    (Step.next loopShader false).run t = .ok (.ok true, t') ∧ t.Runs loopShader c t' ∧
    c.line = 3 ∧ t.currentCommand?.map CommandInfo.line = some 7 := by
  have ran : (announced loopShader [false, false]).toOption.map (fun r => (r.1, r.2.toOption)) =
      some ((some 7, some 3), some true) := by decide +kernel
  obtain ⟨t, t', ht, hcurrent, hupcoming, hstep⟩ := of_announced ran
  obtain ⟨-, c, hruns, hinfo⟩ := upcoming?_of_next hstep
  rw [hinfo] at hupcoming
  exact ⟨t, t', c, ht, hstep, hruns, Option.some.inj hupcoming, hcurrent⟩

end Session

end Wgsl
