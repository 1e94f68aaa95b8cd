import Wgsl.Proofs.Machine.Pointerless

/-! # Scopes that are nested differently

Two runs of which the second opens more scopes than the first. A scope of the first run is overlaid
by one or several scopes of the second, and a name that the first run sees is bound to the same in
both.

* `Overlay`: which scopes stand for which.
* `Overlay.Fits`: the scopes of two runs that are overlaid so.
* `Overlay.Fits.declare`, `Overlay.Fits.assign`: names are bound in both runs.
* `Overlay.Fits.enter`, `Overlay.Fits.leave`: scopes are opened and closed in both runs, of which the
  second may have been used before.
* `Overlay.Fits.deepen`, `Overlay.Fits.surface`: a scope is opened and closed in the second run alone.
-/

namespace Wgsl
set_option autoImplicit false

/-! ## Lookups after a binding -/

namespace ScopeArena

variable {α : Type} {a : ScopeArena α} {id k owner : Nat} {name other : String} {v u : α}

/-- A binding in a scope opened later is not seen. -/
theorem Nested.lookup_insert_of_lt (h : a.Nested) (hlt : id < k) :
    (a.insert k name v).lookup id other = a.lookup id other := by
  refine h.insert.lookup_congr h id (fun i hi => ?_) fun i _ => parent?_insert
  exact findIn?_insert_of_ne (Or.inl (Nat.ne_of_lt (Nat.lt_of_le_of_lt hi hlt)))

theorem Nested.lookup_insert_of_ne (h : a.Nested) (hne : other ≠ name) :
    (a.insert k name v).lookup id other = a.lookup id other :=
  h.insert.lookup_congr h id (fun _ _ => findIn?_insert_of_ne (Or.inr hne)) fun _ _ => parent?_insert

/-- What is found where a name that the scope binds is bound again. -/
theorem Nested.lookup_insert_of_bound (h : a.Nested) (hk : (a.findIn? k name).isSome) (id : Nat) :
    (a.insert k name v).lookup id name =
      (a.lookup id name).map fun found => (found.1, if found.1 = k then v else found.2) := by
  induction id using Nat.strong_induction_on with
  | _ id ih =>
    by_cases hid : id = k
    · subst hid
      obtain ⟨u, hu⟩ := Option.isSome_iff_exists.1 hk
      rw [lookup_of_findIn? (findIn?_insert_self (lt_depth_of_findIn? hu)), lookup_of_findIn? hu,
        Option.map_some, if_pos rfl]
    · have same : (a.insert k name v).findIn? id name = a.findIn? id name :=
        findIn?_insert_of_ne (Or.inl hid)
      cases hf : a.findIn? id name with
      | some u =>
        rw [hf] at same
        rw [lookup_of_findIn? same, lookup_of_findIn? hf, Option.map_some, if_neg hid]
      | none =>
        rw [hf] at same
        rw [h.insert.lookup_of_none same, h.lookup_of_none hf, parent?_insert]
        cases hp : a.parent? id with
        | none => rfl
        | some parent => exact ih parent (h id parent hp)

/-- A lookup does not see a scope opened later. -/
theorem Nested.lookup_push_of_lt (h : a.Nested) {parent : Nat} (hp : parent < a.depth)
    (hid : id < a.depth) : (a.push parent).1.lookup id name = a.lookup id name := by
  refine (h.push hp).lookup_congr h id (fun _ _ => findIn?_push) fun i hi => ?_
  exact parent?_push_of_ne (Nat.ne_of_lt (Nat.lt_of_le_of_lt hi hid))

/-- A fresh scope sees what its parent sees. -/
theorem Nested.lookup_push_depth (h : a.Nested) {parent : Nat} (hp : parent < a.depth) :
    (a.push parent).1.lookup a.depth name = a.lookup parent name := by
  have fresh : (a.push parent).1.findIn? a.depth name = none := by
    rw [findIn?_push, findIn?_of_depth_le (Nat.le_refl _)]
  rw [(h.push hp).lookup_of_none fresh, parent?_push_depth]
  exact h.lookup_push_of_lt hp hp

theorem Nested.lookup_pop (h : a.Nested) (hlt : id < k) :
    (a.pop k).lookup id name = a.lookup id name := by
  refine h.pop.lookup_congr h id (fun i hi => ?_) fun i hi => ?_
  · exact findIn?_pop (Nat.lt_of_le_of_lt hi hlt)
  · exact parent?_pop (Nat.lt_of_le_of_lt hi hlt)

/-- A scope that is found in is open. -/
theorem Nested.lt_depth_of_lookup (h : a.Nested) (hl : a.lookup id name = some (owner, v)) :
    id < a.depth := by
  by_contra hlt
  have hle := Nat.le_of_not_lt hlt
  rw [h.lookup_of_none (findIn?_of_depth_le hle), parent?_of_depth_le hle] at hl
  cases hl

end ScopeArena

/-! ## Overlays -/

/-- Which scopes of a second run stand for those of a first. -/
structure Overlay where
  /-- The scopes that the runs are in. -/
  scope : ScopeId
  scope' : ScopeId
  /-- The innermost scope of the second run that stands for a scope of the first. -/
  tip : ScopeId → ScopeId
  /-- The scope of the second run that binds a name for a scope of the first. -/
  mate : ScopeId → String → ScopeId
  /-- The names that a scope of the second run may bind. -/
  may : ScopeId → String → Prop
  /-- The names that a scope of the first run may see. -/
  sight : ScopeId → String → Prop
  /-- The names that the second run may find in a scope although the first misses them. -/
  stale : ScopeId → String → Prop
  /-- The parent of a scope of the second run. -/
  up : ScopeId → ScopeId

namespace Overlay

/-- The place of the second run for a place of the first. -/
def carry (o : Overlay) (q : Place) : Place :=
  match q.root with
  | .buffer _ => q
  | .variable_ scope name => { q with root := .variable_ (o.mate scope name) name }

/-- Fresh scopes, the second of which is below the given one. They bind the names of one set, see those
of another, and of a third the second run may know more. -/
def entered (o : Overlay) (scope parent : ScopeId) (names sight stale : String → Prop) : Overlay where
  scope := scope
  scope' := o.scope' + 1
  tip := Function.update o.tip scope (o.scope' + 1)
  mate := Function.update o.mate scope fun _ => o.scope' + 1
  may := Function.update o.may (o.scope' + 1) names
  sight := Function.update o.sight scope sight
  stale := Function.update o.stale scope stale
  up := Function.update o.up (o.scope' + 1) parent

/-- A fresh scope of the second run alone, which may bind the names of a set. -/
def deepened (o : Overlay) (names : String → Prop) : Overlay where
  scope := o.scope
  scope' := o.scope' + 1
  tip := Function.update o.tip o.scope (o.scope' + 1)
  mate := o.mate
  may := Function.update o.may (o.scope' + 1) names
  sight := o.sight
  stale := o.stale
  up := Function.update o.up (o.scope' + 1) o.scope'

/-- The name is bound by the scope that the second run is in. -/
def moved (o : Overlay) (name : String) : Overlay :=
  { o with mate := fun i n => if i = o.scope ∧ n = name then o.scope' else o.mate i n }

/-- The names are bound in both runs. -/
def settled (o : Overlay) (names : List String) : Overlay :=
  { o with stale := fun i n => o.stale i n ∧ ¬(i = o.scope ∧ n ∈ names) }

/-- The scopes of the second run that stand for a scope of the first lie before those that stand for
later ones. -/
structure Sound (o : Overlay) : Prop where
  inner : o.scope ≠ ScopeArena.root
  here : o.tip o.scope = o.scope'
  mate_le : ∀ i ≤ o.scope, ∀ n, o.mate i n ≤ o.tip i
  lt_mate : ∀ i j n, i < j → j ≤ o.scope → o.tip i < o.mate j n
  tip_root : o.tip ScopeArena.root = ScopeArena.root

/-- The scopes of two runs. -/
structure Fits (o : Overlay) (a a' : ScopeArena Slot) : Prop where
  sound : o.Sound
  nested : a.Nested
  nested' : a'.Nested
  depth : a.depth = o.scope + 1
  depth' : a'.depth = o.scope' + 1
  parents : ∀ k, 0 < k → k ≤ o.scope' → a'.parent? k = some (o.up k)
  found : ∀ i name owner s, a.lookup i name = some (owner, s) →
    a'.lookup (o.tip i) name = some (o.mate owner name, s)
  may : ∀ k name, (a'.findIn? k name).isSome → o.may k name
  sight : ∀ i name, (a.lookup i name).isSome → o.sight i name
  root : a'.scope? ScopeArena.root = a.scope? ScopeArena.root
  plain : a.Plain

/-! ## Sound overlays -/

section

variable {o : Overlay} {scope i parent : ScopeId} {names sight stale : String → Prop} {name : String}

theorem entered_tip : (o.entered scope parent names sight stale).tip scope = o.scope' + 1 := by
  simp only [entered, Function.update_self]

theorem entered_tip_of_ne (h : i ≠ scope) :
    (o.entered scope parent names sight stale).tip i = o.tip i := by
  simp only [entered, Function.update_of_ne h]

theorem entered_mate (n : String) :
    (o.entered scope parent names sight stale).mate scope n = o.scope' + 1 := by
  simp only [entered, Function.update_self]

theorem entered_mate_of_ne (h : i ≠ scope) :
    (o.entered scope parent names sight stale).mate i = o.mate i := by
  simp only [entered, Function.update_of_ne h]

theorem entered_may : (o.entered scope parent names sight stale).may (o.scope' + 1) = names := by
  simp only [entered, Function.update_self]

theorem entered_may_of_ne (h : i ≠ o.scope' + 1) :
    (o.entered scope parent names sight stale).may i = o.may i := by
  simp only [entered, Function.update_of_ne h]

theorem entered_sight : (o.entered scope parent names sight stale).sight scope = sight := by
  simp only [entered, Function.update_self]

theorem entered_sight_of_ne (h : i ≠ scope) :
    (o.entered scope parent names sight stale).sight i = o.sight i := by
  simp only [entered, Function.update_of_ne h]

theorem entered_stale : (o.entered scope parent names sight stale).stale scope = stale := by
  simp only [entered, Function.update_self]

theorem entered_stale_of_ne (h : i ≠ scope) :
    (o.entered scope parent names sight stale).stale i = o.stale i := by
  simp only [entered, Function.update_of_ne h]

theorem entered_up : (o.entered scope parent names sight stale).up (o.scope' + 1) = parent := by
  simp only [entered, Function.update_self]

theorem entered_up_of_ne (h : i ≠ o.scope' + 1) :
    (o.entered scope parent names sight stale).up i = o.up i := by
  simp only [entered, Function.update_of_ne h]

theorem deepened_tip : (o.deepened names).tip o.scope = o.scope' + 1 := by
  simp only [deepened, Function.update_self]

theorem deepened_tip_of_ne (h : i ≠ o.scope) : (o.deepened names).tip i = o.tip i := by
  simp only [deepened, Function.update_of_ne h]

theorem deepened_may : (o.deepened names).may (o.scope' + 1) = names := by
  simp only [deepened, Function.update_self]

theorem deepened_may_of_ne (h : i ≠ o.scope' + 1) : (o.deepened names).may i = o.may i := by
  simp only [deepened, Function.update_of_ne h]

theorem deepened_up : (o.deepened names).up (o.scope' + 1) = o.scope' := by
  simp only [deepened, Function.update_self]

theorem deepened_up_of_ne (h : i ≠ o.scope' + 1) : (o.deepened names).up i = o.up i := by
  simp only [deepened, Function.update_of_ne h]

theorem moved_mate : (o.moved name).mate o.scope name = o.scope' := by
  simp only [moved, and_self, if_true]

theorem moved_mate_of_ne {n : String} (h : i ≠ o.scope ∨ n ≠ name) :
    (o.moved name).mate i n = o.mate i n := by
  simp only [moved, if_neg (not_and_or.2 h)]

/-- Nothing changes for a name that the scope binds already. -/
theorem moved_eq (h : o.mate o.scope name = o.scope') : o.moved name = o := by
  have same : (fun i n => if i = o.scope ∧ n = name then o.scope' else o.mate i n) = o.mate := by
    funext i n
    split
    · rename_i e
      rw [e.1, e.2, h]
    · rfl
  unfold moved
  rw [same]

namespace Sound

theorem mate_root (h : o.Sound) (n : String) : o.mate ScopeArena.root n = ScopeArena.root := by
  have hle := h.mate_le ScopeArena.root (Nat.zero_le _) n
  rw [h.tip_root] at hle
  exact Nat.le_zero.1 hle

theorem tip_lt (h : o.Sound) (hi : i < o.scope) : o.tip i < o.scope' := by
  have below := h.lt_mate i o.scope "" hi (Nat.le_refl _)
  have within := h.mate_le o.scope (Nat.le_refl _) ""
  rw [h.here] at within
  exact Nat.lt_of_lt_of_le below within

theorem tip_le (h : o.Sound) (hi : i ≤ o.scope) : o.tip i ≤ o.scope' := by
  obtain hlt | rfl := Nat.lt_or_eq_of_le hi
  · exact Nat.le_of_lt (h.tip_lt hlt)
  · exact Nat.le_of_eq h.here

/-- A name is bound by one scope only among those that stand for scopes of the first run. -/
theorem mate_inj (h : o.Sound) {i j : ScopeId} (hi : i ≤ o.scope) (hj : j ≤ o.scope) {n : String}
    (e : o.mate i n = o.mate j n) : i = j := by
  obtain hlt | heq | hlt := Nat.lt_trichotomy i j
  · have below := Nat.lt_of_le_of_lt (h.mate_le i hi n) (h.lt_mate i j n hlt hj)
    exact absurd e (Nat.ne_of_lt below)
  · exact heq
  · have below := Nat.lt_of_le_of_lt (h.mate_le j hj n) (h.lt_mate j i n hlt hi)
    exact absurd e.symm (Nat.ne_of_lt below)

theorem entered (h : o.Sound) : (o.entered (o.scope + 1) parent names sight stale).Sound where
  inner := Nat.succ_ne_zero _
  here := entered_tip
  mate_le i (hi : i ≤ o.scope + 1) n := by
    obtain hi | rfl := Nat.lt_or_eq_of_le hi
    · rw [entered_mate_of_ne (Nat.ne_of_lt hi), entered_tip_of_ne (Nat.ne_of_lt hi)]
      exact h.mate_le i (Nat.le_of_lt_succ hi) n
    · exact Nat.le_of_eq ((entered_mate n).trans entered_tip.symm)
  lt_mate i j n hij (hj : j ≤ o.scope + 1) := by
    obtain hj | rfl := Nat.lt_or_eq_of_le hj
    · rw [entered_tip_of_ne (Nat.ne_of_lt (Nat.lt_trans hij hj)), entered_mate_of_ne (Nat.ne_of_lt hj)]
      exact h.lt_mate i j n hij (Nat.le_of_lt_succ hj)
    · rw [entered_tip_of_ne (Nat.ne_of_lt hij)]
      refine Nat.lt_of_le_of_lt (h.tip_le (Nat.le_of_lt_succ hij)) ?_
      exact Nat.lt_of_lt_of_eq (Nat.lt_succ_self _) (entered_mate n).symm
  tip_root := (entered_tip_of_ne (Nat.ne_of_lt (Nat.succ_pos _))).trans h.tip_root

theorem deepened (h : o.Sound) : (o.deepened names).Sound where
  inner := h.inner
  here := deepened_tip
  mate_le i (hi : i ≤ o.scope) n := by
    obtain hi | rfl := Nat.lt_or_eq_of_le hi
    · rw [deepened_tip_of_ne (Nat.ne_of_lt hi)]
      exact h.mate_le i (Nat.le_of_lt hi) n
    · refine Nat.le_trans (h.mate_le o.scope (Nat.le_refl _) n) ?_
      exact Nat.le_of_lt (Nat.lt_of_lt_of_eq (Nat.lt_succ_of_le (Nat.le_of_eq h.here)) deepened_tip.symm)
  lt_mate i j n hij (hj : j ≤ o.scope) := by
    rw [deepened_tip_of_ne (Nat.ne_of_lt (Nat.lt_of_lt_of_le hij hj))]
    exact h.lt_mate i j n hij hj
  tip_root := (deepened_tip_of_ne h.inner.symm).trans h.tip_root

theorem moved (h : o.Sound) : (o.moved name).Sound where
  inner := h.inner
  here := h.here
  mate_le i (hi : i ≤ o.scope) n := by
    by_cases hne : i ≠ o.scope ∨ n ≠ name
    · rw [moved_mate_of_ne hne]
      exact h.mate_le i hi n
    · rw [not_or, not_not, not_not] at hne
      obtain ⟨rfl, rfl⟩ := hne
      exact Nat.le_of_eq (moved_mate.trans h.here.symm)
  lt_mate i j n hij (hj : j ≤ o.scope) := by
    by_cases hne : j ≠ o.scope ∨ n ≠ name
    · rw [moved_mate_of_ne hne]
      exact h.lt_mate i j n hij hj
    · rw [not_or, not_not, not_not] at hne
      obtain ⟨rfl, rfl⟩ := hne
      exact Nat.lt_of_lt_of_eq (h.tip_lt hij) moved_mate.symm
  tip_root := h.tip_root

end Sound

end

/-! ## Scopes of two runs -/

section

variable {o : Overlay} {a a' b b' : ScopeArena Slot} {name : String} {owner i parent : ScopeId}
  {s : Slot} {names sees stale : String → Prop}

theorem Fits.le_scope (h : o.Fits a a') (hi : i < a.depth) : i ≤ o.scope :=
  Nat.le_of_lt_succ (Nat.lt_of_lt_of_eq hi h.depth)

theorem Fits.lt_depth (h : o.Fits a a') (hi : i ≤ o.scope) : i < a.depth :=
  Nat.lt_of_lt_of_eq (Nat.lt_succ_of_le hi) h.depth.symm

theorem Fits.lt_depth' (h : o.Fits a a') (hi : i ≤ o.scope') : i < a'.depth :=
  Nat.lt_of_lt_of_eq (Nat.lt_succ_of_le hi) h.depth'.symm

/-- What a scope of the first run binds, its mate binds as well. -/
theorem Fits.findIn?_mate (h : o.Fits a a') (hf : a.findIn? owner name = some s) :
    a'.findIn? (o.mate owner name) name = some s := by
  have hl := h.found owner name owner s (ScopeArena.lookup_of_findIn? hf)
  exact (h.nested'.findIn?_of_lookup _ hl).1

theorem scope?_insert_root (h : b'.scope? ScopeArena.root = b.scope? ScopeArena.root)
    {k : ScopeId} (hi : i = ScopeArena.root ↔ k = ScopeArena.root) :
    (b'.insert k name s).scope? ScopeArena.root = (b.insert i name s).scope? ScopeArena.root := by
  unfold ScopeArena.scope? ScopeArena.insert at *
  rw [Array.getElem?_modify, Array.getElem?_modify, h]
  simp only [hi]

theorem scope?_push_root (h : 0 < b.depth) :
    (b.push parent).1.scope? ScopeArena.root = b.scope? ScopeArena.root := by
  unfold ScopeArena.scope? ScopeArena.push
  rw [Array.getElem?_push]
  exact if_neg (Nat.ne_of_lt h)

/-- A name that the first run sees is bound again. -/
theorem Fits.assign (h : o.Fits a a') {old : Slot} (hf : a.findIn? owner name = some old)
    (hs : s.Plain) :
    o.Fits (a.insert owner name s) (a'.insert (o.mate owner name) name s) := by
  have howner : owner ≤ o.scope := h.le_scope (ScopeArena.lt_depth_of_findIn? hf)
  have hf' := h.findIn?_mate hf
  have bound : (a.findIn? owner name).isSome := Option.isSome_iff_exists.2 ⟨_, hf⟩
  have bound' : (a'.findIn? (o.mate owner name) name).isSome := Option.isSome_iff_exists.2 ⟨_, hf'⟩
  refine { h with
    nested := h.nested.insert
    nested' := h.nested'.insert
    depth := ScopeArena.depth_insert.trans h.depth
    depth' := ScopeArena.depth_insert.trans h.depth'
    parents := fun k h₀ hk => ScopeArena.parent?_insert.trans (h.parents k h₀ hk)
    found := ?_
    may := ?_
    sight := ?_
    root := ?_
    plain := ?_ }
  · intro i other k u hl
    by_cases hn : other = name
    · subst hn
      rw [h.nested.lookup_insert_of_bound bound, Option.map_eq_some_iff] at hl
      obtain ⟨⟨k₀, u₀⟩, hl, e⟩ := hl
      obtain ⟨rfl, rfl⟩ := Prod.mk.inj e
      rw [h.nested'.lookup_insert_of_bound bound', h.found i other k₀ u₀ hl, Option.map_some]
      have hk : k₀ ≤ o.scope :=
        h.le_scope (ScopeArena.lt_depth_of_findIn? (h.nested.findIn?_of_lookup i hl).1)
      by_cases e : k₀ = owner
      · subst e
        rw [if_pos rfl, if_pos rfl]
      · rw [if_neg e, if_neg fun e' => e (h.sound.mate_inj hk howner e')]
    · rw [h.nested.lookup_insert_of_ne hn] at hl
      rw [h.nested'.lookup_insert_of_ne hn]
      exact h.found i other k u hl
  · intro k other hk
    by_cases hne : k ≠ o.mate owner name ∨ other ≠ name
    · rw [ScopeArena.findIn?_insert_of_ne hne] at hk
      exact h.may k other hk
    · rw [not_or, not_not, not_not] at hne
      obtain ⟨rfl, rfl⟩ := hne
      exact h.may _ _ bound'
  · intro i other hl
    refine h.sight i other ?_
    by_cases hn : other = name
    · subst hn
      rw [h.nested.lookup_insert_of_bound bound, Option.isSome_map] at hl
      exact hl
    · rwa [h.nested.lookup_insert_of_ne hn] at hl
  · refine scope?_insert_root h.root ⟨?_, fun e => ?_⟩
    · rintro rfl
      exact h.sound.mate_root name
    · exact h.sound.mate_inj howner (Nat.zero_le _) (e.trans (h.sound.mate_root name).symm)
  · intro i other v hv
    by_cases hne : i ≠ owner ∨ other ≠ name
    · rw [ScopeArena.findIn?_insert_of_ne hne] at hv
      exact h.plain i other v hv
    · rw [not_or, not_not, not_not] at hne
      obtain ⟨rfl, rfl⟩ := hne
      rw [ScopeArena.findIn?_insert_self (ScopeArena.lt_depth_of_findIn? hf)] at hv
      cases hv
      exact hs

/-- A name is declared in the scopes that the runs are in. -/
theorem Fits.declare (h : o.Fits a a') (hmay : o.may o.scope' name) (hsight : o.sight o.scope name)
    (hs : s.Plain) :
    (o.moved name).Fits (a.insert o.scope name s) (a'.insert o.scope' name s) := by
  have hlt : o.scope < a.depth := h.lt_depth (Nat.le_refl _)
  have hlt' : o.scope' < a'.depth := h.lt_depth' (Nat.le_refl _)
  have open_of_lookup : ∀ {i k other u}, (a.insert o.scope name s).lookup i other = some (k, u) →
      i ≤ o.scope := by
    intro i k other u hl
    have lt := h.nested.insert.lt_depth_of_lookup hl
    rw [ScopeArena.depth_insert] at lt
    exact h.le_scope lt
  refine {
    sound := h.sound.moved
    nested := h.nested.insert
    nested' := h.nested'.insert
    depth := ScopeArena.depth_insert.trans h.depth
    depth' := ScopeArena.depth_insert.trans h.depth'
    parents := fun k h₀ hk => ScopeArena.parent?_insert.trans (h.parents k h₀ hk)
    found := ?_
    may := ?_
    sight := ?_
    root := ?_
    plain := ?_ }
  · intro i other k u hl
    by_cases hn : other = name
    · subst hn
      obtain hi | rfl := Nat.lt_or_eq_of_le (open_of_lookup hl)
      · rw [h.nested.lookup_insert_of_lt hi] at hl
        have hk : k < o.scope := Nat.lt_of_le_of_lt (h.nested.findIn?_of_lookup i hl).2 hi
        rw [moved_mate_of_ne (Or.inl (Nat.ne_of_lt hk))]
        exact (h.nested'.lookup_insert_of_lt (h.sound.tip_lt hi)).trans (h.found i other k u hl)
      · rw [ScopeArena.lookup_of_findIn? (ScopeArena.findIn?_insert_self hlt)] at hl
        cases hl
        rw [moved_mate]
        change (a'.insert o.scope' other s).lookup (o.tip o.scope) other = _
        rw [h.sound.here]
        exact ScopeArena.lookup_of_findIn? (ScopeArena.findIn?_insert_self hlt')
    · rw [h.nested.lookup_insert_of_ne hn] at hl
      rw [moved_mate_of_ne (Or.inr hn)]
      exact (h.nested'.lookup_insert_of_ne hn).trans (h.found i other k u hl)
  · intro k other hk
    by_cases hne : k ≠ o.scope' ∨ other ≠ name
    · rw [ScopeArena.findIn?_insert_of_ne hne] at hk
      exact h.may k other hk
    · rw [not_or, not_not, not_not] at hne
      obtain ⟨rfl, rfl⟩ := hne
      exact hmay
  · intro i other hl
    by_cases hn : other = name
    · subst hn
      obtain ⟨⟨k, u⟩, hl⟩ := Option.isSome_iff_exists.1 hl
      obtain hi | rfl := Nat.lt_or_eq_of_le (open_of_lookup hl)
      · rw [h.nested.lookup_insert_of_lt hi] at hl
        exact h.sight i other (Option.isSome_iff_exists.2 ⟨_, hl⟩)
      · exact hsight
    · rw [h.nested.lookup_insert_of_ne hn] at hl
      exact h.sight i other hl
  · refine scope?_insert_root h.root ⟨fun e => ?_, fun e => ?_⟩
    · rw [← h.sound.here, e, h.sound.tip_root]
    · have moved : (o.moved name).Sound := h.sound.moved
      refine moved.mate_inj (Nat.le_refl o.scope) (Nat.zero_le _) (n := name) ?_
      rw [moved.mate_root]
      exact moved_mate.trans e
  · intro i other v hv
    by_cases hne : i ≠ o.scope ∨ other ≠ name
    · rw [ScopeArena.findIn?_insert_of_ne hne] at hv
      exact h.plain i other v hv
    · rw [not_or, not_not, not_not] at hne
      obtain ⟨rfl, rfl⟩ := hne
      rw [ScopeArena.findIn?_insert_self hlt] at hv
      cases hv
      exact hs

/-- A fresh scope of the second run on top of others: what was there before is still there. -/
structure Above (a' b' : ScopeArena Slot) (parent : ScopeId) (names : String → Prop) : Prop where
  nested : b'.Nested
  depth : b'.depth = a'.depth + 1
  findIn? : ∀ k < a'.depth, ∀ n, b'.findIn? k n = a'.findIn? k n
  parent? : ∀ k < a'.depth, b'.parent? k = a'.parent? k
  parent : b'.parent? a'.depth = some parent
  names : ∀ n, (b'.findIn? a'.depth n).isSome → names n
  root : b'.scope? ScopeArena.root = a'.scope? ScopeArena.root

theorem Above.lookup (h : Above a' b' parent names) (ha : a'.Nested) {k : ScopeId} {n : String}
    (hk : k < a'.depth) : b'.lookup k n = a'.lookup k n :=
  h.nested.lookup_congr ha k (fun j hj => h.findIn? j (Nat.lt_of_le_of_lt hj hk) n)
    fun j hj => h.parent? j (Nat.lt_of_le_of_lt hj hk)

theorem Above.lookup_depth (h : Above a' b' parent names) (ha : a'.Nested) {n : String}
    (hn : ¬names n) : b'.lookup a'.depth n = a'.lookup parent n := by
  have fresh : b'.findIn? a'.depth n = none := by
    cases hf : b'.findIn? a'.depth n with
    | none => rfl
    | some u => exact absurd (h.names n (Option.isSome_iff_exists.2 ⟨u, hf⟩)) hn
  rw [h.nested.lookup_of_none fresh, h.parent]
  exact h.lookup ha (h.nested _ _ h.parent)

theorem above_push (ha : a'.Nested) (hp : parent < a'.depth) (names : String → Prop) :
    Above a' (a'.push parent).1 parent names where
  nested := ha.push hp
  depth := ScopeArena.depth_push
  findIn? _ _ _ := ScopeArena.findIn?_push
  parent? _ hk := ScopeArena.parent?_push_of_ne (Nat.ne_of_lt hk)
  parent := ScopeArena.parent?_push_depth
  names n hn := by
    rw [ScopeArena.findIn?_push, ScopeArena.findIn?_of_depth_le (Nat.le_refl _)] at hn
    cases hn
  root := scope?_push_root (Nat.lt_of_le_of_lt (Nat.zero_le _) hp)

/-- Scopes are opened below scopes that stand for each other. The one of the second run may bind
names that are not seen there. -/
theorem Fits.enter (h : o.Fits a a') (hp : parent ≤ o.scope) (hb : Above a' b' (o.tip parent) names)
    (hnames : ∀ n, names n → ¬o.sight parent n) (hsees : ∀ n, o.sight parent n → sees n)
    {may : String → Prop} (hmay : ∀ n, names n → may n) :
    (o.entered (o.scope + 1) (o.tip parent) may sees stale).Fits (a.push parent).1 b' := by
  have hlt : parent < a.depth := h.lt_depth hp
  have old : ∀ i ≤ o.scope, i ≠ o.scope + 1 := fun i hi => Nat.ne_of_lt (Nat.lt_succ_of_le hi)
  have fresh : o.scope + 1 = a.depth := h.depth.symm
  have fresh' : o.scope' + 1 = a'.depth := h.depth'.symm
  have open_of_lookup : ∀ {i k other u}, (a.push parent).1.lookup i other = some (k, u) →
      i ≤ o.scope + 1 := by
    intro i k other u hl
    have lt := (h.nested.push hlt).lt_depth_of_lookup hl
    rw [ScopeArena.depth_push, h.depth] at lt
    exact Nat.le_of_lt_succ lt
  refine {
    sound := h.sound.entered
    nested := h.nested.push hlt
    nested' := hb.nested
    depth := by rw [ScopeArena.depth_push, h.depth]; rfl
    depth' := by rw [hb.depth, h.depth']; rfl
    parents := ?_
    found := ?_
    may := ?_
    sight := ?_
    root := ?_
    plain := ?_ }
  · intro k h₀ hk
    obtain hk | rfl := Nat.lt_or_eq_of_le hk
    · have hk : k ≤ o.scope' := Nat.le_of_lt_succ hk
      rw [entered_up_of_ne (Nat.ne_of_lt (Nat.lt_succ_of_le hk)), hb.parent? k (h.lt_depth' hk)]
      exact h.parents k h₀ hk
    · change b'.parent? (o.scope' + 1) = some ((o.entered _ _ _ _ _).up (o.scope' + 1))
      rw [entered_up, fresh']
      exact hb.parent
  · intro i other k u hl
    obtain hi | rfl := Nat.lt_or_eq_of_le (open_of_lookup hl)
    · have hi := Nat.le_of_lt_succ hi
      rw [h.nested.lookup_push_of_lt hlt (h.lt_depth hi)] at hl
      rw [entered_tip_of_ne (old i hi), hb.lookup h.nested' (h.lt_depth' (h.sound.tip_le hi)),
        entered_mate_of_ne (old k (Nat.le_trans (h.nested.findIn?_of_lookup i hl).2 hi))]
      exact h.found i other k u hl
    · rw [fresh, h.nested.lookup_push_depth hlt] at hl
      have seen := h.sight parent other (Option.isSome_iff_exists.2 ⟨_, hl⟩)
      rw [entered_tip, fresh', hb.lookup_depth h.nested' fun hn => hnames other hn seen,
        entered_mate_of_ne (old k (Nat.le_trans (h.nested.findIn?_of_lookup _ hl).2 hp))]
      exact h.found parent other k u hl
  · intro k other hk
    by_cases hk' : k = o.scope' + 1
    · subst hk'
      rw [entered_may]
      rw [fresh'] at hk
      exact hmay other (hb.names other hk)
    · have hkd : k < a'.depth := by
        obtain ⟨u, hu⟩ := Option.isSome_iff_exists.1 hk
        have lt := ScopeArena.lt_depth_of_findIn? hu
        rw [hb.depth] at lt
        exact Nat.lt_of_le_of_ne (Nat.le_of_lt_succ lt) (fresh' ▸ hk')
      rw [entered_may_of_ne hk']
      rw [hb.findIn? k hkd] at hk
      exact h.may k other hk
  · intro i other hl
    obtain ⟨⟨k, u⟩, hl⟩ := Option.isSome_iff_exists.1 hl
    obtain hi | rfl := Nat.lt_or_eq_of_le (open_of_lookup hl)
    · have hi := Nat.le_of_lt_succ hi
      rw [h.nested.lookup_push_of_lt hlt (h.lt_depth hi)] at hl
      rw [entered_sight_of_ne (old i hi)]
      exact h.sight i other (Option.isSome_iff_exists.2 ⟨_, hl⟩)
    · rw [fresh, h.nested.lookup_push_depth hlt] at hl
      rw [entered_sight]
      exact hsees other (h.sight parent other (Option.isSome_iff_exists.2 ⟨_, hl⟩))
  · rw [scope?_push_root (Nat.lt_of_le_of_lt (Nat.zero_le _) hlt), hb.root, h.root]
  · intro i other v hv
    rw [ScopeArena.findIn?_push] at hv
    exact h.plain i other v hv

/-- A scope is opened in the second run alone. -/
theorem Fits.deepen (h : o.Fits a a') :
    (o.deepened names).Fits a (a'.push o.scope').1 := by
  have hlt' : o.scope' < a'.depth := h.lt_depth' (Nat.le_refl _)
  have fresh' : o.scope' + 1 = a'.depth := h.depth'.symm
  have above := above_push h.nested' hlt' fun _ => False
  refine { h with
    sound := h.sound.deepened
    nested' := above.nested
    depth' := by rw [above.depth, h.depth']; rfl
    parents := ?_
    found := ?_
    may := ?_
    root := above.root.trans h.root }
  · intro k h₀ hk
    obtain hk | rfl := Nat.lt_or_eq_of_le hk
    · have hk : k ≤ o.scope' := Nat.le_of_lt_succ hk
      rw [deepened_up_of_ne (Nat.ne_of_lt (Nat.lt_succ_of_le hk)), above.parent? k (h.lt_depth' hk)]
      exact h.parents k h₀ hk
    · change (a'.push o.scope').1.parent? (o.scope' + 1) = some ((o.deepened _).up (o.scope' + 1))
      rw [deepened_up, fresh']
      exact above.parent
  · intro i other k u hl
    have hi := h.le_scope (h.nested.lt_depth_of_lookup hl)
    change _ = some (o.mate k other, u)
    by_cases hne : i = o.scope
    · subst hne
      rw [deepened_tip, fresh', above.lookup_depth h.nested' id, ← h.sound.here]
      exact h.found _ other k u hl
    · rw [deepened_tip_of_ne hne, above.lookup h.nested' (h.lt_depth' (h.sound.tip_le hi))]
      exact h.found i other k u hl
  · intro k other hk
    rw [ScopeArena.findIn?_push] at hk
    have hne : k ≠ o.scope' + 1 := by
      rintro rfl
      rw [fresh', ScopeArena.findIn?_of_depth_le (Nat.le_refl _)] at hk
      cases hk
    rw [deepened_may_of_ne hne]
    exact h.may k other hk

theorem scope?_pop_root {k : ScopeId} (hk : 0 < k) :
    (b.pop k).scope? ScopeArena.root = b.scope? ScopeArena.root := ScopeArena.scope?_pop hk

/-- The scope that was opened in the second run alone is closed, if no name was bound in it for the
first run. -/
theorem Fits.surface (ho : o.Sound) (h : (o.deepened names).Fits a b') :
    o.Fits a (b'.pop (o.scope' + 1)) := by
  have hlast : o.scope' + 1 < b'.depth := h.lt_depth' (Nat.le_refl _)
  have pop : ∀ k n, k < o.scope' + 1 → (b'.pop (o.scope' + 1)).lookup k n = b'.lookup k n :=
    fun k n hk => h.nested'.lookup_pop hk
  have popped : (b'.pop (o.scope' + 1)).depth = o.scope' + 1 :=
    ScopeArena.depth_pop (Nat.succ_pos _) hlast
  refine { h with
    sound := ho
    nested' := h.nested'.pop
    depth' := popped
    parents := ?_
    found := ?_
    may := ?_
    root := (scope?_pop_root (Nat.succ_pos _)).trans h.root }
  · intro k h₀ hk
    rw [ScopeArena.parent?_pop (Nat.lt_succ_of_le hk), h.parents k h₀ (Nat.le_succ_of_le hk),
      deepened_up_of_ne (Nat.ne_of_lt (Nat.lt_succ_of_le hk))]
  · intro i other k u hl
    have hi : i ≤ o.scope := h.le_scope (h.nested.lt_depth_of_lookup hl)
    have hk : k ≤ o.scope := Nat.le_trans (h.nested.findIn?_of_lookup i hl).2 hi
    have found := h.found i other k u hl
    by_cases hne : i = o.scope
    · subst hne
      rw [deepened_tip] at found
      -- the name is bound further out: the scope that is closed stands for no scope
      have outside : b'.findIn? (o.scope' + 1) other = none := by
        cases hf : b'.findIn? (o.scope' + 1) other with
        | none => rfl
        | some u' =>
          rw [ScopeArena.lookup_of_findIn? hf] at found
          have e : o.scope' + 1 = o.mate k other := congrArg Prod.fst (Option.some.inj found)
          have le := Nat.le_trans (ho.mate_le k hk other) (ho.tip_le hk)
          rw [← e] at le
          exact absurd le (Nat.not_succ_le_self _)
      have parent : b'.parent? (o.scope' + 1) = some o.scope' := by
        rw [h.parents _ (Nat.succ_pos _) (Nat.le_refl _), deepened_up]
      rw [h.nested'.lookup_of_none outside, parent] at found
      rw [ho.here, pop _ _ (Nat.lt_succ_self _)]
      exact found
    · rw [deepened_tip_of_ne hne] at found
      rw [pop _ _ (Nat.lt_succ_of_le (ho.tip_le hi))]
      exact found
  · intro k other hk
    have hkd : k < o.scope' + 1 := by
      obtain ⟨u, hu⟩ := Option.isSome_iff_exists.1 hk
      exact Nat.lt_of_lt_of_eq (ScopeArena.lt_depth_of_findIn? hu) popped
    rw [ScopeArena.findIn?_pop hkd] at hk
    have := h.may k other hk
    rwa [deepened_may_of_ne (Nat.ne_of_lt hkd)] at this

/-- The second overlay has grown out of the first by opening scopes. -/
structure Below (o₁ o₂ : Overlay) : Prop where
  scope : o₁.scope < o₂.scope
  scope' : o₁.scope' < o₂.scope'
  tip : ∀ i ≤ o₁.scope, o₂.tip i = o₁.tip i
  mate : ∀ i ≤ o₁.scope, o₂.mate i = o₁.mate i
  may : ∀ k ≤ o₁.scope', o₂.may k = o₁.may k
  sight : ∀ i ≤ o₁.scope, o₂.sight i = o₁.sight i
  stale : ∀ i ≤ o₁.scope, o₂.stale i = o₁.stale i
  up : ∀ k ≤ o₁.scope', o₂.up k = o₁.up k

theorem below_entered : o.Below (o.entered (o.scope + 1) parent names sees stale) where
  scope := Nat.lt_succ_self _
  scope' := Nat.lt_succ_self _
  tip _ hi := entered_tip_of_ne (Nat.ne_of_lt (Nat.lt_succ_of_le hi))
  mate _ hi := entered_mate_of_ne (Nat.ne_of_lt (Nat.lt_succ_of_le hi))
  may _ hk := entered_may_of_ne (Nat.ne_of_lt (Nat.lt_succ_of_le hk))
  sight _ hi := entered_sight_of_ne (Nat.ne_of_lt (Nat.lt_succ_of_le hi))
  stale _ hi := entered_stale_of_ne (Nat.ne_of_lt (Nat.lt_succ_of_le hi))
  up _ hk := entered_up_of_ne (Nat.ne_of_lt (Nat.lt_succ_of_le hk))

theorem Below.deepened {o₁ o₂ : Overlay} (h : o₁.Below o₂) : o₁.Below (o₂.deepened names) where
  scope := h.scope
  scope' := Nat.lt_succ_of_lt h.scope'
  tip i hi := (deepened_tip_of_ne (Nat.ne_of_lt (Nat.lt_of_le_of_lt hi h.scope))).trans (h.tip i hi)
  mate i hi := h.mate i hi
  may k hk := (deepened_may_of_ne (Nat.ne_of_lt (Nat.lt_succ_of_lt
    (Nat.lt_of_le_of_lt hk h.scope')))).trans (h.may k hk)
  sight i hi := h.sight i hi
  stale i hi := h.stale i hi
  up k hk := (deepened_up_of_ne (Nat.ne_of_lt (Nat.lt_succ_of_lt
    (Nat.lt_of_le_of_lt hk h.scope')))).trans (h.up k hk)

/-- In the innermost scope names are bound elsewhere or are bound in both runs by now; all else is as
before. -/
def Rebound (o₁ o₂ : Overlay) : Prop :=
  ∃ mate stale, o₂ = { o₁ with mate, stale } ∧ (∀ i ≠ o₁.scope, mate i = o₁.mate i ∧ stale i = o₁.stale i) ∧
    ∀ n, stale o₁.scope n → o₁.stale o₁.scope n

theorem rebound_refl : o.Rebound o :=
  ⟨o.mate, o.stale, rfl, fun _ _ => ⟨rfl, rfl⟩, fun _ hn => hn⟩

theorem settled_of_ne {list : List String} (h : i ≠ o.scope) :
    (o.settled list).stale i = o.stale i :=
  funext fun _ => propext ⟨fun hn => hn.1, fun hn => ⟨hn, fun hi => h hi.1⟩⟩

theorem Rebound.settled {o₁ o₂ : Overlay} (h : o₁.Rebound o₂) (list : List String) :
    o₁.Rebound (o₂.settled list) := by
  obtain ⟨mate, stale, rfl, hold, hstale⟩ := h
  refine ⟨mate, _, rfl, fun i hi => ⟨(hold i hi).1, ?_⟩, fun n hn => hstale n hn.1⟩
  rw [← (hold i hi).2]
  exact settled_of_ne (o := { o₁ with mate, stale }) hi

theorem Rebound.moved {o₁ o₂ : Overlay} (h : o₁.Rebound o₂) : o₁.Rebound (o₂.moved name) := by
  obtain ⟨mate, stale, rfl, hold, hstale⟩ := h
  refine ⟨_, stale, rfl, fun i hi => ⟨?_, (hold i hi).2⟩, hstale⟩
  rw [← (hold i hi).1]
  exact funext fun n => moved_mate_of_ne (Or.inl hi)

theorem Rebound.trans {o₁ o₂ o₃ : Overlay} (h : o₁.Rebound o₂) (h' : o₂.Rebound o₃) :
    o₁.Rebound o₃ := by
  obtain ⟨mate, stale, rfl, hold, hstale⟩ := h
  obtain ⟨mate', stale', rfl, hold', hstale'⟩ := h'
  refine ⟨mate', stale', rfl, fun i hi => ?_, fun n hn => hstale n (hstale' n hn)⟩
  exact ⟨(hold' i hi).1.trans (hold i hi).1, (hold' i hi).2.trans (hold i hi).2⟩

theorem Below.rebound {o₁ o₂ o₃ : Overlay} (h : o₁.Below o₂) (h' : o₂.Rebound o₃) : o₁.Below o₃ := by
  obtain ⟨mate, stale, rfl, hold, -⟩ := h'
  have inner : ∀ i ≤ o₁.scope, i ≠ o₂.scope := fun i hi =>
    Nat.ne_of_lt (Nat.lt_of_le_of_lt hi h.scope)
  exact { h with
    mate := fun i hi => (hold i (inner i hi)).1.trans (h.mate i hi)
    stale := fun i hi => (hold i (inner i hi)).2.trans (h.stale i hi) }

/-- The scopes that were opened are closed again. -/
theorem Fits.leave {o₂ : Overlay} (ho : o.Sound) (hb : o.Below o₂) (h : o₂.Fits b b') :
    o.Fits (b.pop (o.scope + 1)) (b'.pop (o.scope' + 1)) := by
  have hlast : o.scope + 1 < b.depth := h.lt_depth hb.scope
  have hlast' : o.scope' + 1 < b'.depth := h.lt_depth' hb.scope'
  have depth : (b.pop (o.scope + 1)).depth = o.scope + 1 :=
    ScopeArena.depth_pop (Nat.succ_pos _) hlast
  have depth' : (b'.pop (o.scope' + 1)).depth = o.scope' + 1 :=
    ScopeArena.depth_pop (Nat.succ_pos _) hlast'
  have open_of_lookup : ∀ {i k other u}, (b.pop (o.scope + 1)).lookup i other = some (k, u) →
      i ≤ o.scope := by
    intro i k other u hl
    have lt := h.nested.pop.lt_depth_of_lookup hl
    rw [depth] at lt
    exact Nat.le_of_lt_succ lt
  refine {
    sound := ho
    nested := h.nested.pop
    nested' := h.nested'.pop
    depth := depth
    depth' := depth'
    parents := ?_
    found := ?_
    may := ?_
    sight := ?_
    root := ?_
    plain := ?_ }
  · intro k h₀ hk
    rw [ScopeArena.parent?_pop (Nat.lt_succ_of_le hk),
      h.parents k h₀ (Nat.le_of_lt (Nat.lt_of_le_of_lt hk hb.scope')), hb.up k hk]
  · intro i other k u hl
    have hi := open_of_lookup hl
    rw [h.nested.lookup_pop (Nat.lt_succ_of_le hi)] at hl
    have hk : k ≤ o.scope := Nat.le_trans (h.nested.findIn?_of_lookup i hl).2 hi
    have found := h.found i other k u hl
    rw [hb.tip i hi, hb.mate k hk] at found
    rw [h.nested'.lookup_pop (Nat.lt_succ_of_le (ho.tip_le hi))]
    exact found
  · intro k other hk
    have hkd : k < o.scope' + 1 := by
      obtain ⟨u, hu⟩ := Option.isSome_iff_exists.1 hk
      exact Nat.lt_of_lt_of_eq (ScopeArena.lt_depth_of_findIn? hu) depth'
    rw [ScopeArena.findIn?_pop hkd] at hk
    have may := h.may k other hk
    rwa [hb.may k (Nat.le_of_lt_succ hkd)] at may
  · intro i other hl
    obtain ⟨⟨k, u⟩, hl⟩ := Option.isSome_iff_exists.1 hl
    have hi := open_of_lookup hl
    rw [h.nested.lookup_pop (Nat.lt_succ_of_le hi)] at hl
    have seen := h.sight i other (Option.isSome_iff_exists.2 ⟨_, hl⟩)
    rwa [hb.sight i hi] at seen
  · rw [scope?_pop_root (Nat.succ_pos _), scope?_pop_root (Nat.succ_pos _), h.root]
  · intro i other v hv
    have hid : i < o.scope + 1 := Nat.lt_of_lt_of_eq (ScopeArena.lt_depth_of_findIn? hv) depth
    rw [ScopeArena.findIn?_pop hid] at hv
    exact h.plain i other v hv

end

end Overlay

end Wgsl
