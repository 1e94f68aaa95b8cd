import Wgsl.Proofs.Machine.Exact

/-! # Runs whose scopes are nested differently

Two runs over machines that differ in their scopes, and these are overlaid, and in the lines of the
errors that were reported. The second run does the same as the first: either as long as the first goes
well, or whatever happens, if the scopes are overlaid exactly.

* `Overlay.Related`: what the machines of the two runs have in common.
* `Overlay.correspondence`: it is lax if nothing is asked of the second run once the first has
  reported an error.
* `Overlay.lawful`: every primitive step keeps it.

No value holds a pointer: a pointer would name a scope of one of the runs.
-/

namespace Wgsl
set_option autoImplicit false

open Correspondence
open Value (rename)

/-- No outcome stands for a call. If nothing may go wrong, nothing has gone wrong so far, and the
variables of the module are among some names and take no address. -/
structure Machine.Clear (lax : Prop) (names : String → Prop) (m : Machine) : Prop where
  silent : lax → m.diagnostics = #[]
  calm : lax → m.discarded = false
  callResults : m.callResults = []
  vars : lax → ∀ v ∈ m.moduleVars, AddressFree v.nodes ∧ names v.name

/-- The same has gone wrong in the same order. -/
def RunError.SameCauses (d d' : Array RunError) : Prop :=
  d'.map RunError.cause = d.map RunError.cause

theorem RunError.SameCauses.push {d d' : Array RunError} (h : SameCauses d d') {e e' : RunError}
    (he : e'.cause = e.cause) : SameCauses (d.push e) (d'.push e') := by
  unfold SameCauses at *
  rw [Array.map_push, Array.map_push, h, he]

theorem RunError.cause_at (e : RunError) (line : Nat) : (e.at_ line).cause = e.cause := by
  unfold RunError.at_
  split <;> rfl

namespace Overlay

/-- The machines of two runs: they differ in their scopes, which are overlaid, and in the lines of
the reported errors. -/
inductive Related (lax : Prop) (names : String → Prop) (o : Overlay) (m : Machine) : Machine → Prop
  | mk {a' : ScopeArena Slot} {d' : Array RunError} : m.Clear lax names → o.Matches lax m.scopes a' →
    RunError.SameCauses m.diagnostics d' →
    Related lax names o m { m with scopes := a', diagnostics := d' }

/-- A name may be declared in the scopes that the runs are in. -/
structure Declares (o : Overlay) (name : String) : Prop where
  mate : o.mate o.scope name = o.scope'
  may : o.may o.scope' name
  sight : o.sight o.scope name

/-- A name that is known where it is bound, or that nothing is asked of. -/
def Knows (lax : Prop) (o : Overlay) (scope : ScopeId) (name : String) : Prop :=
  lax ∨ ¬o.stale scope name

/-- A place in a scope that is open in the first run, or in memory. -/
def Live (lax : Prop) (o : Overlay) (q : Place) : Prop :=
  match q.root with
  | .buffer _ => True
  | .variable_ owner name => owner ≤ o.scope ∧ Knows lax o owner name

/-- What the two runs have in common. -/
def correspondence (lax : Prop) (names calls : String → Prop) : Correspondence where
  World := Overlay
  lax := lax
  across := .same
  within := .deeper
  rel := Related lax names
  places o q q' := q' = o.carry q ∧ Live lax o q
  scope o := o.scope
  scope' o := o.scope'
  declare o name := o.settled [name]
  sees o name := Knows lax o o.scope name
  free _ := True
  calls := calls
  address := False
  declares := Declares
  inner o := ∀ name, o.Declares name

section

variable {lax : Prop} {names calls : String → Prop} {o : Overlay} {m m' : Machine} {name : String}
  {owner : ScopeId} {slot : Slot} {v : Value} {a a' : ScopeArena Slot}

theorem faithful (lax : Prop) (names calls : String → Prop) :
    (correspondence lax names calls).Faithful := ⟨rfl, rfl⟩

/-! ## What the second run finds -/

theorem knows_entered {scope parent : ScopeId} {may sight stale : String → Prop}
    (h : lax ∨ ¬stale name) : Knows lax (o.entered scope parent may sight stale) scope name := by
  unfold Knows
  rwa [entered_stale]

/-- What a lookup finds in the first run is found in the second; what it misses may be there only if
the correspondence is lax. -/
theorem Matches.lookup (h : o.Matches lax a a') (hn : Knows lax o o.scope name) :
    (∃ owner slot, a.lookup o.scope name = some (owner, slot) ∧
      a'.lookup o.scope' name = some (o.mate owner name, slot) ∧ slot.Plain ∧ owner ≤ o.scope ∧
      Knows lax o owner name) ∨
    a.lookup o.scope name = none ∧ (lax ∨ a'.lookup o.scope' name = none) := by
  cases hl : a.lookup o.scope name with
  | some found =>
    obtain ⟨owner, slot⟩ := found
    have found := h.fits.found _ name owner slot hl
    rw [h.fits.sound.here] at found
    have bound := h.fits.nested.findIn?_of_lookup _ hl
    refine Or.inl ⟨owner, slot, rfl, found, h.fits.plain owner name slot bound.1, bound.2, ?_⟩
    by_cases hlax : lax
    · exact Or.inl hlax
    · have fresh := hn.resolve_left hlax
      exact Or.inr fun hs => fresh ((h.exact hlax).owned _ name owner slot hl hs)
  | none =>
    refine Or.inr ⟨rfl, ?_⟩
    by_cases hlax : lax
    · exact Or.inl hlax
    · have missed := (h.exact hlax).missed _ (Nat.le_refl _) name (hn.resolve_left hlax) hl
      rw [h.fits.sound.here] at missed
      exact Or.inr missed

/-- A name that is bound in a scope is bound in the scope that binds it for the second run. -/
theorem Matches.findIn? (h : o.Matches lax a a') (ho : owner ≤ o.scope ∧ Knows lax o owner name) :
    (∃ slot, a.findIn? owner name = some slot ∧
      a'.findIn? (o.mate owner name) name = some slot ∧ slot.Plain) ∨
    a.findIn? owner name = none ∧ (lax ∨ a'.findIn? (o.mate owner name) name = none) := by
  cases hf : a.findIn? owner name with
  | some slot => exact Or.inl ⟨slot, rfl, h.fits.findIn?_mate hf, h.fits.plain owner name slot hf⟩
  | none =>
    refine Or.inr ⟨rfl, ?_⟩
    by_cases hlax : lax
    · exact Or.inl hlax
    · exact Or.inr ((h.exact hlax).unbound _ ho.1 name (ho.2.resolve_left hlax) hf)

/-- The place of a name, in the second run. -/
theorem carry_place (hs : slot.Plain) :
    slot.place (o.mate owner name) name = o.carry (slot.place owner name) := by
  cases slot with
  | view view => rfl
  | value v =>
    cases v with
    | pointer q => exact absurd hs (Value.not_plain_pointer q)
    | _ => rfl

theorem live_place (hs : slot.Plain) (ho : owner ≤ o.scope ∧ Knows lax o owner name) :
    Live lax o (slot.place owner name) := by
  cases slot with
  | view view => trivial
  | value v =>
    cases v with
    | pointer q => exact absurd hs (Value.not_plain_pointer q)
    | _ => exact ho

theorem carry_below (q : Place) (a : Access) : o.carry (q.below a) = (o.carry q).below a := by
  obtain ⟨root, path⟩ := q
  cases root <;> rfl

/-- What is read at a place of the first run is read at the place of the second. -/
theorem Related.readPlace (h : Related lax names o m m') (q : Place) (hq : Live lax o q) :
    m'.readPlace (o.carry q) = m.readPlace q ∨ lax ∧ ∃ e, m.readPlace q = .error e := by
  obtain ⟨-, fits, -⟩ := h
  obtain ⟨root, path⟩ := q
  cases root with
  | buffer view => exact Or.inl rfl
  | variable_ owner name =>
    unfold Machine.readPlace carry
    dsimp only
    obtain ⟨slot, hf, hf', -⟩ | ⟨hf, hlax | hf'⟩ := fits.findIn? hq
    · rw [hf, hf']
      exact Or.inl rfl
    · rw [hf]
      exact Or.inr ⟨hlax, _, rfl⟩
    · rw [hf, hf']
      exact Or.inl rfl

theorem Related.countAt (h : Related lax names o m m') (q : Place) (hq : Live lax o q) :
    m'.countAt (o.carry q) = m.countAt q ∨ lax ∧ ∃ e, m.countAt q = .error e := by
  have read := h.readPlace q hq
  obtain ⟨-, fits, -⟩ := h
  obtain ⟨root, path⟩ := q
  cases root with
  | buffer view => exact Or.inl rfl
  | variable_ owner name =>
    unfold Machine.countAt carry at *
    dsimp only at *
    obtain ⟨slot, hf, hf', -⟩ | ⟨hf, hlax | hf'⟩ := fits.findIn? hq
    · rw [hf, hf']
      cases slot with
      | view view => exact Or.inl rfl
      | value v =>
        dsimp only
        refine read.imp (fun read => by rw [read]) fun ⟨hlax, e, he⟩ => ⟨hlax, e, ?_⟩
        rw [he]
        rfl
    · rw [hf]
      exact Or.inr ⟨hlax, _, rfl⟩
    · rw [hf, hf']
      exact Or.inl rfl

/-! ## Computations of the two runs -/

/-- Where both runs read the same, the second follows the first. -/
theorem evalSim_of_same {α : Type} {p : Prop} {Q : α → α → Prop} {x x' : Eval α}
    {r r' : Machine → Run α} (hx : ∀ m, x.run m = .ok (r m, m))
    (hx' : ∀ m, x'.run m = .ok (r' m, m))
    (h : p → ∀ m m', Related lax names o m m' →
      Run.Alike Q (r m) (r' m') ∨ lax ∧ ∃ e, r m = .error e) :
    (correspondence lax names calls).EvalSim p o o Q x x' := by
  refine evalSim_of_read_or hx hx' fun hp m m' hm => ?_
  refine (h hp m m' hm).imp id fun ⟨hlax, he⟩ => ⟨hlax, ?_, he⟩
  obtain ⟨clear, -, -⟩ := hm
  exact clear.calm hlax

/-- The same is written at places that stand for each other. -/
theorem Related.writePlace (h : Related lax names o m m') (q : Place) (hq : Live lax o q) (hv : v.Plain) :
    (Run.Alike (fun _ _ => True) ((Machine.writePlace q v).apply m).1
        ((Machine.writePlace (o.carry q) v).apply m').1 ∧
      Related lax names o ((Machine.writePlace q v).apply m).2
        ((Machine.writePlace (o.carry q) v).apply m').2) ∨
      (lax ∧ ((Machine.writePlace q v).apply m).2.discarded = false ∧
        ∃ e, ((Machine.writePlace q v).apply m).1 = .error e) := by
  obtain ⟨clear, fits, causes⟩ := h
  obtain ⟨root, path⟩ := q
  cases root with
  | buffer view => exact Or.inl ⟨alike_refl (fun _ => trivial) _, .mk { clear with } fits causes⟩
  | variable_ owner name =>
    unfold carry
    dsimp only
    obtain ⟨slot, hf, hf', hs⟩ | ⟨hf, hlax | hf'⟩ := fits.findIn? hq
    · refine Or.inl ?_
      cases slot with
      | view view =>
        rw [Machine.writePlace_view hf, Machine.writePlace_view hf']
        exact ⟨alike_refl (fun _ => trivial) _, .mk { clear with } fits causes⟩
      | value old =>
        rw [Machine.writePlace_value hf, Machine.writePlace_value hf']
        refine ⟨alike_refl (fun _ => trivial) _, .mk { clear with } ?_ causes⟩
        exact fits.assign hf (Value.plain_assigned path hs hv)
    · rw [Machine.writePlace_none hf]
      exact Or.inr ⟨hlax, clear.calm hlax, _, rfl⟩
    · rw [Machine.writePlace_none hf, Machine.writePlace_none hf']
      exact Or.inl ⟨rfl, .mk clear fits causes⟩

theorem Related.forget {list : List String} (h : Related lax names (o.settled list) m m') :
    Related lax names o m m' := by
  obtain ⟨clear, fits, causes⟩ := h
  exact .mk clear fits.forget causes

theorem Related.bind (h : Related lax names o m m') (hd : o.Declares name) (hs : slot.Plain) :
    Related lax names (o.settled [name]) (m.bind o.scope name slot) (m'.bind o.scope' name slot) := by
  obtain ⟨clear, fits, causes⟩ := h
  have declared := fits.declare hd.may hd.sight hs
  rw [moved_eq hd.mate] at declared
  exact .mk { clear with } declared causes

/-! ## Fresh scopes -/

theorem Related.enter (h : Related lax names o m m') {parent : ScopeId} (hp : parent ≤ o.scope)
    (may : String → Prop) {sight : String → Prop} (hs : ∀ n, o.sight parent n → sight n) :
    Related lax names (o.entered (o.scope + 1) (o.tip parent) may sight (o.stale parent))
      (m.pushed parent) (m'.pushed (o.tip parent)) := by
  obtain ⟨clear, fits, causes⟩ := h
  have above := above_push fits.fits.nested' (fits.fits.lt_depth' (fits.fits.sound.tip_le hp))
    fun _ => False
  refine .mk { clear with } (fits.enter hp above ?_ hs ?_ ?_ fun _ hn => hn) causes
  · exact fun _ hn => hn.elim
  · exact fun _ hn => hn.elim
  · exact fun _ hn => hn.elim

theorem Related.leave (ho : o.Sound) {o₂ : Overlay} (hb : o.Below o₂) (h : Related lax names o₂ m m') :
    Related lax names o (m.popped (o.scope + 1)) (m'.popped (o.scope' + 1)) := by
  obtain ⟨clear, fits, causes⟩ := h
  exact .mk { clear with } (fits.leave ho hb) causes

/-- A scope opened in both runs, below those they are in. -/
def block (o : Overlay) (may sight stale : String → Prop) : Overlay :=
  o.entered (o.scope + 1) o.scope' may sight stale

theorem declares_block {may sight stale : String → Prop} (hm : may name) (hs : sight name) :
    (o.block may sight stale).Declares name where
  mate := entered_mate name
  may := by
    change (o.block may sight stale).may (o.scope' + 1) name
    rw [block, entered_may]
    exact hm
  sight := by
    change (o.block may sight stale).sight (o.scope + 1) name
    rw [block, entered_sight]
    exact hs

theorem Related.sound (h : Related lax names o m m') : o.Sound := by
  obtain ⟨-, fits, -⟩ := h
  exact fits.fits.sound

theorem Related.depth (h : Related lax names o m m') : m.scopes.depth = o.scope + 1 := by
  obtain ⟨-, fits, -⟩ := h
  exact fits.fits.depth

theorem Related.depth' (h : Related lax names o m m') : m'.scopes.depth = o.scope' + 1 := by
  obtain ⟨-, fits, -⟩ := h
  exact fits.fits.depth'

theorem Related.block (h : Related lax names o m m') (may : String → Prop) {sight : String → Prop}
    (hs : ∀ n, o.sight o.scope n → sight n) :
    Related lax names (o.block may sight (o.stale o.scope)) (m.pushed o.scope)
      (m'.pushed o.scope') := by
  have entered := h.enter (Nat.le_refl o.scope) may hs
  rw [h.sound.here] at entered
  exact entered

/-- A scope is opened in the second run alone. -/
theorem Related.deepened (h : Related lax names o m m') (may : String → Prop) :
    Related lax names (o.deepened may) m (m'.pushed o.scope') := by
  obtain ⟨clear, fits, causes⟩ := h
  exact .mk { clear with } fits.deepen causes

/-- It is closed again. -/
theorem Related.surface (ho : o.Sound) {may : String → Prop}
    (h : Related lax names (o.deepened may) m m') : Related lax names o m (m'.popped (o.scope' + 1)) := by
  obtain ⟨clear, fits, causes⟩ := h
  exact .mk { clear with } (fits.surface ho) causes

/-- A name is bound in a scope of the second run that has not bound it before. -/
theorem Related.bindMoved (h : Related lax names o m m') (hm : o.may o.scope' name)
    (hs : o.sight o.scope name) (hv : slot.Plain) :
    Related lax names ((o.moved name).settled [name]) (m.bind o.scope name slot)
      (m'.bind o.scope' name slot) := by
  obtain ⟨clear, fits, causes⟩ := h
  exact .mk { clear with } (fits.declare hm hs hv) causes

/-- A scope that has just been opened in the second run leaves all else as it was. -/
theorem Related.above_pushed (h : Related lax names o m m') (may : String → Prop) :
    Above m'.scopes (m'.pushed o.scope').scopes o.scope' may := by
  obtain ⟨-, fits, -⟩ := h
  exact above_push fits.fits.nested' (fits.fits.lt_depth' (Nat.le_refl _)) may

/-- What a scope leaves behind when it stays open in the second run. -/
theorem Related.above {may sight stale : String → Prop}
    (h : Related lax names (o.block may sight stale) m m') :
    Above (m'.popped (o.scope' + 1)).scopes m'.scopes o.scope' may := by
  obtain ⟨-, ⟨fits, -⟩, -⟩ := h
  rename_i a' _
  have hlast : o.scope' + 1 < a'.depth := fits.lt_depth' (Nat.le_refl _)
  have popped : (a'.pop (o.scope' + 1)).depth = o.scope' + 1 :=
    ScopeArena.depth_pop (Nat.succ_pos _) hlast
  change Above (a'.pop (o.scope' + 1)) a' o.scope' may
  refine {
    nested := fits.nested'
    depth := by rw [popped, fits.depth']; rfl
    findIn? := fun k hk n => ?_
    parent? := fun k hk => ?_
    parent := ?_
    names := fun n hn => ?_
    root := (scope?_pop_root (Nat.succ_pos _)).symm }
  · rw [popped] at hk
    exact (ScopeArena.findIn?_pop hk).symm
  · rw [popped] at hk
    exact (ScopeArena.parent?_pop hk).symm
  · rw [popped]
    have parent := fits.parents (o.scope' + 1) (Nat.succ_pos _) (Nat.le_refl _)
    rwa [Overlay.block, entered_up] at parent
  · rw [popped] at hn
    have bound := fits.may _ n hn
    rwa [Overlay.block, entered_may] at bound

/-- A scope that has stayed open in the second run is used again, if what it binds is not seen outside
of it. -/
theorem Related.reenter {may sight stale : String → Prop}
    (h : Related lax names o m (m'.popped (o.scope' + 1)))
    (ha : Above (m'.popped (o.scope' + 1)).scopes m'.scopes o.scope' may)
    (hm : ∀ n, may n → ¬o.sight o.scope n) (hs : ∀ n, o.sight o.scope n → sight n)
    (hfresh : ∀ n, may n → stale n) (hstale : ∀ n, o.stale o.scope n → stale n) :
    Related lax names (o.block may sight stale) (m.pushed o.scope) m' := by
  have same : m' = { m'.popped (o.scope' + 1) with scopes := m'.scopes } := rfl
  generalize m'.popped (o.scope' + 1) = m₀ at h ha same
  rw [same]
  obtain ⟨clear, fits, causes⟩ := h
  have here := fits.fits.sound.here
  refine .mk { clear with } ?_ causes
  rw [Overlay.block, ← here]
  exact fits.enter (Nat.le_refl _) (here ▸ ha) hm hs (fun _ hn => hn) hfresh hstale

/-- Scopes are opened below scopes that stand for each other, and may be used in any way. -/
theorem Related.opens (calls : String → Prop) (h : Related lax names o m m') {parent : ScopeId}
    (hp : parent ≤ o.scope) :
    (correspondence lax names calls).Opens o
      (o.entered (o.scope + 1) (o.tip parent) (fun _ => True) (fun _ => True) (o.stale parent)) parent
      (o.tip parent) m m' := by
  have opened : Related lax names
      (o.entered (o.scope + 1) (o.tip parent) (fun _ => True) (fun _ => True) (o.stale parent))
      (m.pushed parent) (m'.pushed (o.tip parent)) := h.enter hp _ fun _ _ => trivial
  obtain ⟨clear, fits, causes⟩ := h
  refine ⟨fun name => ⟨entered_mate name, ?_, ?_⟩, fits.fits.depth.symm, fits.fits.depth'.symm, opened, ?_⟩
  · exact entered_may ▸ trivial
  · exact entered_sight ▸ trivial
  · exact fun n n' hn => hn.leave fits.fits.sound below_entered

/-! ## The laws -/

/-- As long as the first run goes well, the second does the same. -/
theorem lawful (lax : Prop) (names calls : String → Prop) : (correspondence lax names calls).Lawful where
  calm h hlax := by
    obtain ⟨clear, -, -⟩ := h
    exact clear.calm hlax
  discarded h := by
    obtain ⟨-, -, -⟩ := h
    rfl
  callResults h := by
    obtain ⟨clear, -, -⟩ := h
    exact ⟨clear.callResults, clear.callResults⟩
  callDepth h := by
    obtain ⟨-, -, -⟩ := h
    rfl
  withDepth n h := by
    obtain ⟨clear, fits, causes⟩ := h
    exact .mk { clear with } fits causes
  layouts h := by
    obtain ⟨-, -, -⟩ := h
    rfl
  withLayouts l h := by
    obtain ⟨clear, fits, causes⟩ := h
    exact .mk { clear with } fits causes
  reported e hlax h := by
    obtain ⟨clear, fits, causes⟩ := h
    exact .mk { clear with silent := fun h => absurd h hlax } fits (causes.push rfl)
  readName o name := by
    refine evalSim_of_same (Eval.readName_run _ name) (Eval.readName_run _ name)
      fun hn m m' hm => ?_
    obtain ⟨-, fits, -⟩ := hm
    unfold Machine.nameValue
    dsimp only [correspondence]
    obtain ⟨owner, slot, hl, hl', hs, -⟩ | ⟨hl, hlax | hl'⟩ := fits.lookup hn
    · rw [hl, hl']
      exact Or.inl ((faithful lax names calls).alike fun v => Machine.plain_slotValue hs)
    · rw [hl]
      exact Or.inr ⟨hlax, _, rfl⟩
    · rw [hl, hl']
      exact Or.inl rfl
  placeOfName o name line := by
    refine evalSim_of_same (Eval.placeOfName_run _ name line) (Eval.placeOfName_run _ name line)
      fun hn m m' hm => ?_
    obtain ⟨-, fits, -⟩ := hm
    unfold Machine.namePlace
    dsimp only [correspondence]
    obtain ⟨owner, slot, hl, hl', hs, howner⟩ | ⟨hl, hlax | hl'⟩ := fits.lookup hn
    · rw [hl, hl']
      exact Or.inl ⟨_, rfl, carry_place hs, live_place hs howner⟩
    · rw [hl]
      exact Or.inr ⟨hlax, _, rfl⟩
    · rw [hl, hl']
      exact Or.inl rfl
  readPlace o q q' := by
    refine evalSim_of_same (Eval.readPlace_run q) (Eval.readPlace_run q') fun hq m m' hm => ?_
    obtain ⟨rfl, live⟩ := hq
    refine (hm.readPlace q live).imp (fun same => ?_) id
    rw [same]
    obtain ⟨-, fits, -⟩ := hm
    exact (faithful lax names calls).alike fun v => Machine.plain_readPlace fits.fits.plain
  writePlace o q q' v v' := by
    refine evalSim_of_change_or (Machine.diagnostics_writePlace q v) fun hp m m' hm => ?_
    obtain ⟨⟨rfl, live⟩, hv⟩ := hp
    obtain ⟨rfl, hv⟩ := (faithful lax names calls).values_iff.1 hv
    exact hm.writePlace q live hv
  countAt o q q' := by
    refine evalSim_of_same (Eval.countAt_run q) (Eval.countAt_run q') fun hq m m' hm => ?_
    obtain ⟨rfl, live⟩ := hq
    refine (hm.countAt q live).imp (fun same => ?_) id
    rw [same]
    exact alike_refl (fun _ => rfl) _
  below {o q q'} a h := by
    obtain ⟨rfl, live⟩ := h
    exact ⟨(carry_below q a).symm, live⟩
  ofPointer h := ((faithful lax names calls).not_pointer _ h).elim
  toPointer h := h.elim
  texture h hm := by
    obtain ⟨-, -, -⟩ := hm
    rw [Value.texture.inj ((faithful lax names calls).values_iff.1 h).1]
  onTexture o i i' c := by
    refine evalSim_of_change (fun _ => rfl) fun h m m' hm => ?_
    obtain ⟨clear, fits, causes⟩ := hm
    cases Value.texture.inj ((faithful lax names calls).values_iff.1 h).1
    exact ⟨alike_refl (fun _ => trivial) _, .mk { clear with } fits causes⟩
  bind name hd hv hm := by
    obtain ⟨rfl, hv⟩ := (faithful lax names calls).values_iff.1 hv
    exact hm.bind hd hv
  weaken _ h := h.forget
  scope_declare _ _ := rfl
  scope'_declare _ _ := rfl
  sees_declare _ h := h.imp id fun fresh hs => fresh hs.1
  declares_inner name h := h name
  inner_declare _ h name := ⟨(h name).mate, (h name).may, (h name).sight⟩
  sees_declared name _ := Or.inr fun hs => hs.2 ⟨rfl, List.mem_singleton_self name⟩
  everywhere scope :=
    ⟨⟨scope, 0, fun _ => 0, fun _ _ => 0, fun _ _ => True, fun _ _ => True, fun _ _ => False,
      fun _ => 0⟩, rfl, fun _ => ⟨rfl, trivial, trivial⟩, fun _ => Or.inr id⟩
  opens {o m m'} h := by
    have opens := h.opens calls (Nat.le_refl o.scope)
    obtain ⟨clear, fits, causes⟩ := h
    rw [fits.fits.sound.here] at opens
    exact ⟨_, opens, fun n hn => knows_entered hn⟩
  enters {o m m'} h := by
    have opens := h.opens calls (Nat.zero_le o.scope)
    obtain ⟨clear, fits, causes⟩ := h
    rw [show o.tip 0 = ScopeArena.root from fits.fits.sound.tip_root] at opens
    refine ⟨_, opens, fun n _ => knows_entered ?_⟩
    by_cases hlax : lax
    · exact Or.inl hlax
    · exact Or.inr ((fits.exact hlax).root n)
  discard hlax h := by
    obtain ⟨clear, fits, causes⟩ := h
    exact .mk { clear with calm := fun h => absurd h hlax } fits causes

/-! ## Declarations -/

/-- A name that is declared is bound by the scope that the second run is in from then on. -/
theorem evalSim_action {s : Shader} {call call' : Caller}
    (hcall : (correspondence lax names calls).Answers s call call') {a : Action}
    {S : String → Prop} (hS : ∀ n, S n → Knows lax o o.scope n)
    (hd : ∀ n ∈ a.declares?, o.may o.scope' n ∧ o.sight o.scope n)
    (ha : a.Admitted (correspondence lax names calls) S) :
    (correspondence lax names calls).EvalSim True o
      (a.declares?.elim o fun n => (o.moved n).settled [n]) (fun _ _ => True)
      (Eval.action s call o.scope a) (Eval.action s call' o.scope' a) := by
  have L := lawful lax names calls
  cases a with
  | declare kind v =>
    refine Eval.evalSim_declareInto (w := o) L hcall hS ha ?_
    intro u u' m m' hu hm
    obtain ⟨rfl, hu⟩ := (faithful lax names calls).values_iff.1 hu
    obtain ⟨may, sight⟩ := hd v.name rfl
    exact hm.bindMoved may sight hu
  | assign op target value => exact Eval.evalSim_action (w := o) L hcall hS nofun ha
  | increment op target => exact Eval.evalSim_action (w := o) L hcall hS nofun ha
  | call callee => exact Eval.evalSim_action (w := o) L hcall hS nofun ha

end

end Overlay

end Wgsl
