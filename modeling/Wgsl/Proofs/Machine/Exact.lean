import Wgsl.Proofs.Machine.Overlay

/-! # Scopes in which the same names are missing

Overlaid scopes bind what the first run finds. Here the second run does not find more either, apart from
names that are left over from an earlier use of a scope, so an unknown name is unknown to both.

* `Overlay.Exact`: the names that the first run misses, the second misses as well.
* `Overlay.Exact.declare`, `Overlay.Exact.assign`: names are bound in both runs.
* `Overlay.Exact.enter`, `Overlay.Exact.leave`: scopes are opened and closed in both runs, of which the
  second may have been used before.
* `Overlay.Exact.deepen`, `Overlay.Exact.surface`: a scope is opened and closed in the second run
  alone.
* `Overlay.Matches`: both, for runs whose scopes are overlaid exactly or not.
-/

namespace Wgsl.Overlay
set_option autoImplicit false

/-- What the first run does not find, the second does not find either. -/
structure Exact (o : Overlay) (a a' : ScopeArena Slot) : Prop where
  missed : ∀ i ≤ o.scope, ∀ name, ¬o.stale i name → a.lookup i name = none →
    a'.lookup (o.tip i) name = none
  unbound : ∀ i ≤ o.scope, ∀ name, ¬o.stale i name → a.findIn? i name = none →
    a'.findIn? (o.mate i name) name = none
  /-- A name that is known where it is bound is known where it is found. -/
  owned : ∀ i name owner s, a.lookup i name = some (owner, s) → o.stale owner name → o.stale i name
  root : ∀ name, ¬o.stale ScopeArena.root name

section

variable {o : Overlay} {a a' b b' : ScopeArena Slot} {name : String} {owner parent : ScopeId}
  {s : Slot} {names sees may stale : String → Prop}

theorem Sound.mate_le_scope (h : o.Sound) {i : ScopeId} (hi : i ≤ o.scope) (n : String) :
    o.mate i n ≤ o.scope' :=
  Nat.le_trans (h.mate_le i hi n) (h.tip_le hi)

/-- A name that the first run sees is bound again. -/
theorem Exact.assign (h : o.Exact a a') (hf : o.Fits a a') {old : Slot}
    (hold : a.findIn? owner name = some old) :
    o.Exact (a.insert owner name s) (a'.insert (o.mate owner name) name s) where
  missed i hi other hs hl := by
    by_cases hn : other = name
    · subst hn
      have bound : (a.findIn? owner other).isSome := Option.isSome_of_eq_some hold
      have bound' := Option.isSome_of_eq_some (hf.findIn?_mate hold)
      rw [hf.nested.lookup_insert_of_bound bound, Option.map_eq_none_iff] at hl
      rw [hf.nested'.lookup_insert_of_bound bound', h.missed i hi other hs hl]
      rfl
    · rw [hf.nested.lookup_insert_of_ne hn] at hl
      rw [hf.nested'.lookup_insert_of_ne hn]
      exact h.missed i hi other hs hl
  unbound i hi other hs hu := by
    have howner : owner ≤ o.scope := hf.le_scope (ScopeArena.lt_depth_of_findIn? hold)
    by_cases hne : i ≠ owner ∨ other ≠ name
    · rw [ScopeArena.findIn?_insert_of_ne hne] at hu
      rw [ScopeArena.findIn?_insert_of_ne]
      · exact h.unbound i hi other hs hu
      · by_contra same
        rw [not_or, not_not, not_not] at same
        obtain ⟨e, rfl⟩ := same
        exact hne.elim (fun hne => hne (hf.sound.mate_inj hi howner e)) fun hne => hne rfl
    · rw [not_or, not_not, not_not] at hne
      obtain ⟨rfl, rfl⟩ := hne
      rw [ScopeArena.findIn?_insert_self (ScopeArena.lt_depth_of_findIn? hold)] at hu
      cases hu
  owned i other k u hl hs := by
    by_cases hn : other = name
    · subst hn
      have bound : (a.findIn? owner other).isSome := Option.isSome_of_eq_some hold
      rw [hf.nested.lookup_insert_of_bound bound, Option.map_eq_some_iff] at hl
      obtain ⟨⟨k₀, u₀⟩, hl, e⟩ := hl
      cases e
      exact h.owned i other k₀ u₀ hl hs
    · rw [hf.nested.lookup_insert_of_ne hn] at hl
      exact h.owned i other k u hl hs
  root := h.root

/-- A name is declared in the scopes that the runs are in. -/
theorem Exact.declare (h : o.Exact a a') (hf : o.Fits a a') :
    ((o.moved name).settled [name]).Exact (a.insert o.scope name s) (a'.insert o.scope' name s) := by
  have found : (a.insert o.scope name s).lookup o.scope name = some (o.scope, s) :=
    ScopeArena.lookup_of_findIn? (ScopeArena.findIn?_insert_self (hf.lt_depth (Nat.le_refl o.scope)))
  have kept : ∀ {i other}, ¬((o.moved name).settled [name]).stale i other →
      i ≠ o.scope ∨ other ≠ name → ¬o.stale i other := by
    intro i other hs hne hold
    refine hs ⟨hold, fun hin => ?_⟩
    exact hne.elim (fun hi => hi hin.1) fun hn => hn (List.mem_singleton.1 hin.2)
  refine ⟨?_, ?_, ?_, ?_⟩
  · intro i (hi : i ≤ o.scope) other hs hl
    change (a'.insert o.scope' name s).lookup (o.tip i) other = none
    by_cases hn : other = name
    · subst hn
      obtain hi | rfl := Nat.lt_or_eq_of_le hi
      · rw [hf.nested.lookup_insert_of_lt hi] at hl
        rw [hf.nested'.lookup_insert_of_lt (hf.sound.tip_lt hi)]
        exact h.missed i (Nat.le_of_lt hi) other (kept hs (Or.inl (Nat.ne_of_lt hi))) hl
      · rw [found] at hl
        cases hl
    · rw [hf.nested.lookup_insert_of_ne hn] at hl
      rw [hf.nested'.lookup_insert_of_ne hn]
      exact h.missed i hi other (kept hs (Or.inr hn)) hl
  · intro i (hi : i ≤ o.scope) other hs hu
    change (a'.insert o.scope' name s).findIn? ((o.moved name).mate i other) other = none
    by_cases hne : i ≠ o.scope ∨ other ≠ name
    · rw [ScopeArena.findIn?_insert_of_ne hne] at hu
      rw [moved_mate_of_ne hne, ScopeArena.findIn?_insert_of_ne]
      · exact h.unbound i hi other (kept hs hne) hu
      · refine hne.imp_left fun hne e => ?_
        have below := hf.sound.tip_lt (Nat.lt_of_le_of_ne hi hne)
        exact Nat.not_lt_of_le (e ▸ hf.sound.mate_le i hi other) below
    · rw [not_or, not_not, not_not] at hne
      obtain ⟨rfl, rfl⟩ := hne
      rw [ScopeArena.findIn?_insert_self (hf.lt_depth (Nat.le_refl _))] at hu
      cases hu
  · intro i other owner u hl hs
    obtain ⟨hs, hne⟩ : o.stale owner other ∧ ¬(owner = o.scope ∧ other ∈ [name]) := hs
    by_cases hn : other = name
    · subst hn
      have hi : i ≤ o.scope := by
        have lt := hf.nested.insert.lt_depth_of_lookup hl
        rw [ScopeArena.depth_insert] at lt
        exact hf.le_scope lt
      obtain hi | rfl := Nat.lt_or_eq_of_le hi
      · rw [hf.nested.lookup_insert_of_lt hi] at hl
        exact ⟨h.owned i other owner u hl hs, fun hin => Nat.ne_of_lt hi hin.1⟩
      · rw [found] at hl
        cases hl
        exact absurd ⟨rfl, List.mem_singleton_self _⟩ hne
    · rw [hf.nested.lookup_insert_of_ne hn] at hl
      exact ⟨h.owned i other owner u hl hs, fun hin => hn (List.mem_singleton.1 hin.2)⟩
  · exact fun other hs => h.root other hs.1

/-- Fresh scopes are opened below scopes that stand for each other. -/
theorem Exact.enter (h : o.Exact a a') (hf : o.Fits a a') (hp : parent ≤ o.scope)
    (hb : Above a' b' (o.tip parent) names) (hnames : ∀ n, names n → stale n)
    (hstale : ∀ n, o.stale parent n → stale n) :
    (o.entered (o.scope + 1) (o.tip parent) may sees stale).Exact (a.push parent).1 b' := by
  have hlt : parent < a.depth := hf.lt_depth hp
  have fresh : o.scope + 1 = a.depth := hf.depth.symm
  have fresh' : o.scope' + 1 = a'.depth := hf.depth'.symm
  refine ⟨fun i hi other hs hl => ?_, fun i hi other hs hu => ?_, fun i other owner u hl hs => ?_,
    fun n hs => ?_⟩
  · obtain hi | rfl := Nat.lt_or_eq_of_le (show i ≤ o.scope + 1 from hi)
    · have old := Nat.le_of_lt_succ hi
      rw [hf.nested.lookup_push_of_lt hlt (hf.lt_depth old)] at hl
      rw [entered_tip_of_ne (Nat.ne_of_lt hi),
        hb.lookup hf.nested' (hf.lt_depth' (hf.sound.tip_le old))]
      rw [entered_stale_of_ne (Nat.ne_of_lt hi)] at hs
      exact h.missed i old other hs hl
    · rw [fresh, hf.nested.lookup_push_depth hlt] at hl
      rw [entered_stale] at hs
      rw [entered_tip, fresh', hb.lookup_depth hf.nested' fun hn => hs (hnames other hn)]
      exact h.missed parent hp other (fun hn => hs (hstale other hn)) hl
  · obtain hi | rfl := Nat.lt_or_eq_of_le (show i ≤ o.scope + 1 from hi)
    · have old := Nat.le_of_lt_succ hi
      rw [ScopeArena.findIn?_push] at hu
      rw [entered_stale_of_ne (Nat.ne_of_lt hi)] at hs
      rw [entered_mate_of_ne (Nat.ne_of_lt hi),
        hb.findIn? _ (hf.lt_depth' (hf.sound.mate_le_scope old other))]
      exact h.unbound i old other hs hu
    · rw [entered_stale] at hs
      rw [entered_mate, fresh', ← Option.not_isSome_iff_eq_none]
      exact fun bound => hs (hnames other (hb.names other bound))
  · have hi : i ≤ o.scope + 1 := by
      have lt := (hf.nested.push hlt).lt_depth_of_lookup hl
      rw [ScopeArena.depth_push, hf.depth] at lt
      exact Nat.le_of_lt_succ lt
    obtain hi | rfl := Nat.lt_or_eq_of_le hi
    · have old := Nat.le_of_lt_succ hi
      rw [hf.nested.lookup_push_of_lt hlt (hf.lt_depth old)] at hl
      have ho := Nat.lt_of_le_of_lt (hf.nested.findIn?_of_lookup i hl).2 hi
      rw [entered_stale_of_ne (Nat.ne_of_lt ho)] at hs
      rw [entered_stale_of_ne (Nat.ne_of_lt hi)]
      exact h.owned i other owner u hl hs
    · rw [fresh, hf.nested.lookup_push_depth hlt] at hl
      have ho := Nat.le_trans (hf.nested.findIn?_of_lookup _ hl).2 hp
      rw [entered_stale_of_ne (Nat.ne_of_lt (Nat.lt_succ_of_le ho))] at hs
      rw [entered_stale]
      exact hstale other (h.owned parent other owner u hl hs)
  · have outer : ScopeArena.root ≠ o.scope + 1 := (Nat.succ_ne_zero _).symm
    rw [entered_stale_of_ne outer] at hs
    exact h.root n hs

/-- A scope is opened in the second run alone. -/
theorem Exact.deepen (h : o.Exact a a') (hf : o.Fits a a') :
    (o.deepened names).Exact a (a'.push o.scope').1 := by
  have hlt' : o.scope' < a'.depth := hf.lt_depth' (Nat.le_refl _)
  have fresh' : o.scope' + 1 = a'.depth := hf.depth'.symm
  refine ⟨fun i (hi : i ≤ o.scope) other hs hl => ?_, fun i (hi : i ≤ o.scope) other hs hu => ?_,
    h.owned, h.root⟩
  · by_cases hne : i = o.scope
    · subst hne
      rw [deepened_tip, fresh', hf.nested'.lookup_push_depth hlt', ← hf.sound.here]
      exact h.missed _ (Nat.le_refl _) other hs hl
    · rw [deepened_tip_of_ne hne,
        hf.nested'.lookup_push_of_lt hlt' (hf.lt_depth' (hf.sound.tip_le hi))]
      exact h.missed i hi other hs hl
  · rw [ScopeArena.findIn?_push]
    exact h.unbound i hi other hs hu

/-- The scope that was opened in the second run alone is closed. -/
theorem Exact.surface (ho : o.Sound) (hf : (o.deepened names).Fits a b')
    (h : (o.deepened names).Exact a b') : o.Exact a (b'.pop (o.scope' + 1)) := by
  refine ⟨fun i hi other hs hl => ?_, fun i hi other hs hu => ?_, h.owned, h.root⟩
  · have missed := h.missed i hi other hs hl
    by_cases hne : i = o.scope
    · subst hne
      rw [deepened_tip] at missed
      have outside : b'.findIn? (o.scope' + 1) other = none := by
        by_contra bound
        obtain ⟨u, hu⟩ := Option.ne_none_iff_exists'.1 bound
        rw [ScopeArena.lookup_of_findIn? hu] at missed
        cases missed
      have parent : b'.parent? (o.scope' + 1) = some o.scope' := by
        rw [hf.parents _ (Nat.succ_pos _) (Nat.le_refl _), deepened_up]
      rw [hf.nested'.lookup_of_none outside, parent] at missed
      rw [ho.here, hf.nested'.lookup_pop (Nat.lt_succ_self _)]
      exact missed
    · rw [deepened_tip_of_ne hne] at missed
      rw [hf.nested'.lookup_pop (Nat.lt_succ_of_le (ho.tip_le hi))]
      exact missed
  · rw [ScopeArena.findIn?_pop (Nat.lt_succ_of_le (ho.mate_le_scope hi other))]
    exact h.unbound i hi other hs hu

/-- The scopes that were opened are closed again. -/
theorem Exact.leave {o₂ : Overlay} (ho : o.Sound) (hb : o.Below o₂) (hf : o₂.Fits b b')
    (h : o₂.Exact b b') : o.Exact (b.pop (o.scope + 1)) (b'.pop (o.scope' + 1)) := by
  have inner : ∀ {i}, i ≤ o.scope → i ≤ o₂.scope := fun hi =>
    Nat.le_of_lt (Nat.lt_of_le_of_lt hi hb.scope)
  refine ⟨fun i hi other hs hl => ?_, fun i hi other hs hu => ?_, fun i other owner u hl hs => ?_,
    fun n => ?_⟩
  · rw [hf.nested.lookup_pop (Nat.lt_succ_of_le hi)] at hl
    rw [← hb.stale i hi] at hs
    have missed := h.missed i (inner hi) other hs hl
    rw [hb.tip i hi] at missed
    rw [hf.nested'.lookup_pop (Nat.lt_succ_of_le (ho.tip_le hi))]
    exact missed
  · rw [ScopeArena.findIn?_pop (Nat.lt_succ_of_le hi)] at hu
    rw [← hb.stale i hi] at hs
    have unbound := h.unbound i (inner hi) other hs hu
    rw [hb.mate i hi] at unbound
    rw [ScopeArena.findIn?_pop (Nat.lt_succ_of_le (ho.mate_le_scope hi other))]
    exact unbound
  · have hi : i ≤ o.scope := by
      have lt := hf.nested.pop.lt_depth_of_lookup hl
      rw [ScopeArena.depth_pop (Nat.succ_pos _) (hf.lt_depth hb.scope)] at lt
      exact Nat.le_of_lt_succ lt
    rw [hf.nested.lookup_pop (Nat.lt_succ_of_le hi)] at hl
    have ho' := Nat.le_trans (hf.nested.findIn?_of_lookup i hl).2 hi
    rw [← hb.stale i hi]
    rw [← hb.stale owner ho'] at hs
    exact h.owned i other owner u hl hs
  · rw [← hb.stale ScopeArena.root (Nat.zero_le _)]
    exact h.root n

end

/-! ## Scopes that are overlaid, exactly or not -/

/-- The scopes of two runs that are overlaid. Unless the second run may find more, they are so
exactly. -/
structure Matches (lax : Prop) (o : Overlay) (a a' : ScopeArena Slot) : Prop where
  fits : o.Fits a a'
  exact : ¬lax → o.Exact a a'

section

variable {lax : Prop} {o : Overlay} {a a' b b' : ScopeArena Slot} {name : String}
  {owner parent : ScopeId} {s : Slot} {names sees may stale : String → Prop} {list : List String}

theorem Fits.settled (h : o.Fits a a') (list : List String) : (o.settled list).Fits a a' :=
  { h with sound := { h.sound with } }

theorem Fits.of_settled (h : (o.settled list).Fits a a') : o.Fits a a' :=
  { h with sound := { h.sound with } }

/-- It may be forgotten which names are bound in both runs. -/
theorem Matches.forget (h : (o.settled list).Matches lax a a') : o.Matches lax a a' where
  fits := h.fits.of_settled
  exact hl := by
    have exact := h.exact hl
    refine ⟨fun i hi n hs => exact.missed i hi n fun hs' => hs hs'.1,
      fun i hi n hs => exact.unbound i hi n fun hs' => hs hs'.1, fun i n owner u hlookup hs => ?_,
      fun n hs => exact.root n ⟨hs, fun hin => h.fits.sound.inner hin.1.symm⟩⟩
    by_cases hin : owner = o.scope ∧ n ∈ list
    · obtain ⟨rfl, -⟩ := hin
      have lt := h.fits.nested.lt_depth_of_lookup hlookup
      have le := (h.fits.nested.findIn?_of_lookup i hlookup).2
      rwa [Nat.le_antisymm (h.fits.le_scope lt) le]
    · exact (exact.owned i n owner u hlookup ⟨hs, hin⟩).1

theorem Matches.assign (h : o.Matches lax a a') {old : Slot} (hold : a.findIn? owner name = some old)
    (hs : s.Plain) : o.Matches lax (a.insert owner name s) (a'.insert (o.mate owner name) name s) :=
  ⟨h.fits.assign hold hs, fun hl => (h.exact hl).assign h.fits hold⟩

theorem Matches.declare (h : o.Matches lax a a') (hmay : o.may o.scope' name)
    (hsight : o.sight o.scope name) (hs : s.Plain) :
    ((o.moved name).settled [name]).Matches lax (a.insert o.scope name s)
      (a'.insert o.scope' name s) :=
  ⟨(h.fits.declare hmay hsight hs).settled _, fun hl => (h.exact hl).declare h.fits⟩

theorem Matches.enter (h : o.Matches lax a a') (hp : parent ≤ o.scope)
    (hb : Above a' b' (o.tip parent) names) (hnames : ∀ n, names n → ¬o.sight parent n)
    (hsees : ∀ n, o.sight parent n → sees n) (hmay : ∀ n, names n → may n)
    (hfresh : ∀ n, names n → stale n) (hstale : ∀ n, o.stale parent n → stale n) :
    (o.entered (o.scope + 1) (o.tip parent) may sees stale).Matches lax (a.push parent).1 b' :=
  ⟨h.fits.enter hp hb hnames hsees hmay, fun hl => (h.exact hl).enter h.fits hp hb hfresh hstale⟩

theorem Matches.deepen (h : o.Matches lax a a') :
    (o.deepened names).Matches lax a (a'.push o.scope').1 :=
  ⟨h.fits.deepen, fun hl => (h.exact hl).deepen h.fits⟩

theorem Matches.surface (ho : o.Sound) (h : (o.deepened names).Matches lax a b') :
    o.Matches lax a (b'.pop (o.scope' + 1)) :=
  ⟨h.fits.surface ho, fun hl => (h.exact hl).surface ho h.fits⟩

theorem Matches.leave {o₂ : Overlay} (ho : o.Sound) (hb : o.Below o₂) (h : o₂.Matches lax b b') :
    o.Matches lax (b.pop (o.scope + 1)) (b'.pop (o.scope' + 1)) :=
  ⟨h.fits.leave ho hb, fun hl => (h.exact hl).leave ho hb h.fits⟩

end

end Wgsl.Overlay
