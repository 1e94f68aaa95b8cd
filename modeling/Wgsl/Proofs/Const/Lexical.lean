import Wgsl.Proofs.Const.Folding

/-! # Folding by scopes

A constant that is declared in a body is in scope up to the end of the block. What its initializer
names is found in what is in scope at the declaration, and not where the constant is used.

* `Consts.resolve`: the constant that a name stands for.
* `Expr.foldIn`: folding with any way to find the initializer of a name and what is in scope there.
* `Expr.foldScoped`: folding by scopes.
* `Expr.foldIn_imp`: what is found in one way is found in another one that resolves names alike.
* `Consts.Agree`: the names that a value depends on stand for the same constants at another place.
* `Consts.Agree.folds`: folding over the table of such a place is folding by scopes.
-/

namespace Wgsl
set_option autoImplicit false

/-! ## Constants in scope -/

/-- Constants that are declared in a body, with their initializers. The nearest one comes first, and
behind each are those that are in scope at its declaration. -/
abbrev Consts := List (String × Expr)

/-- The nearest constant of the name, else that of the module: what is in scope at its declaration, and
its initializer. -/
def Consts.resolve (module : Table Expr) : Consts → String → Option (Consts × Expr)
  | [], name => (module.find? name).map fun init => ([], init)
  | (x, init) :: outer, name => if x = name then some (outer, init) else resolve module outer name

namespace Expr

/-! ## Folding in an environment -/

/-- The value of an expression at most `depth` levels deep. A name stands for an initializer that is
evaluated in an environment of its own. -/
def foldIn {E : Type} (resolve : E → String → Option (E × Expr)) : Nat → E → Expr → Folding Constant
  | 0, _, _ => failure
  | depth + 1, env, e =>
    match e with
    | .var _ name => do
      let (outer, init) ← (resolve env name).elim failure pure
      foldIn resolve depth outer init
    | e => foldStep [] (foldIn resolve depth env) e

/-- The value of a constant expression by scopes. -/
def foldScoped (module : Table Expr) (scope : Consts) (e : Expr) : Except Fault (Option Constant) :=
  (foldIn (Consts.resolve module) maxFoldDepth scope e).run

/-- The value by scopes where a natural number below `2 ^ 32` is wanted. -/
def foldScopedUInt32 (module : Table Expr) (scope : Consts) (e : Expr) :
    Except Fault (Option UInt32) := do
  return (← foldScoped module scope e).bind Constant.toUInt32?

variable {E E' : Type} {resolve : E → String → Option (E × Expr)}
  {resolve' : E' → String → Option (E' × Expr)} {depth : Nat} {env : E} {env' : E'} {c : Constant}

theorem foldIn_var {k : Mark} {name : String} :
    (foldIn resolve (depth + 1) env (.var k name)).run = .ok (some c) ↔
      ∃ outer init, resolve env name = some (outer, init) ∧
        (foldIn resolve depth outer init).run = .ok (some c) := by
  rw [foldIn, folding_bind]
  simp only [folding_elim, Prod.exists]

theorem foldIn_step {e : Expr} (hvar : ∀ k name, e ≠ .var k name) :
    foldIn resolve (depth + 1) env e = foldStep [] (foldIn resolve depth env) e := by
  rw [foldIn]
  exact hvar

/-- A value is found as well in an environment where the names that are read stand for the same
initializers, and those that are read there do, and so on. By induction on the levels. -/
theorem foldIn_imp {R : E → E' → String → Prop}
    (hresolve : ∀ env env' x outer init, R env env' x → resolve env x = some (outer, init) →
      ∃ outer', resolve' env' x = some (outer', init) ∧ ∀ y, init.Reads y → R outer outer' y)
    {e : Expr} (he : ∀ x, e.Reads x → R env env' x)
    (h : (foldIn resolve depth env e).run = .ok (some c)) :
    (foldIn resolve' depth env' e).run = .ok (some c) := by
  induction depth generalizing env env' e c with
  | zero => cases h
  | succ depth ih =>
    by_cases hvar : ∃ k name, e = .var k name
    · obtain ⟨k, name, rfl⟩ := hvar
      obtain ⟨outer, init, hinit, h⟩ := foldIn_var.1 h
      have read : (Expr.var k name).Reads name := List.mem_singleton_self _
      obtain ⟨outer', hinit', alike⟩ := hresolve _ _ _ _ _ (he name read) hinit
      exact foldIn_var.2 ⟨outer', init, hinit', ih alike h⟩
    · have other : ∀ k name, e ≠ .var k name := fun k name he => hvar ⟨k, name, he⟩
      rw [foldIn_step other] at h ⊢
      exact foldStep_imp other (fun a c ha => ih fun x hx => he x (ha x hx)) h

/-- A table finds an initializer for a name wherever the name stands. -/
def tabled (constants : Table Expr) (_ : Unit) (name : String) : Option (Unit × Expr) :=
  (constants.find? name).map fun init => ((), init)

theorem tabled_eq {constants : Table Expr} {name : String} {u u' : Unit} {init : Expr} :
    tabled constants u name = some (u', init) ↔ constants.find? name = some init := by
  unfold tabled
  rw [Option.map_eq_some_iff]
  exact ⟨fun ⟨_, h, e⟩ => by cases e; exact h, fun h => ⟨init, h, rfl⟩⟩

theorem counted_some {r : Except Fault (Option Constant)} {n : UInt32} :
    (do return (← r).bind Constant.toUInt32? : Except Fault (Option UInt32)) = .ok (some n) ↔
      ∃ c, r = .ok (some c) ∧ c.toUInt32? = some n := by
  constructor
  · intro h
    cases r with
    | error f => cases h
    | ok c? =>
      obtain ⟨c, rfl, hc⟩ := Option.bind_eq_some_iff.1 (Except.ok.inj h)
      exact ⟨c, rfl, hc⟩
  · rintro ⟨c, rfl, hc⟩
    exact congrArg Except.ok hc

theorem foldIn_tabled {constants : Table Expr} {e : Expr} :
    (foldIn (tabled constants) depth () e).run = .ok (some c) ↔ Folds constants depth e c := by
  induction depth generalizing e c with
  | zero => exact ⟨nofun, nofun⟩
  | succ depth ih =>
    by_cases hvar : ∃ k name, e = .var k name
    · obtain ⟨k, name, rfl⟩ := hvar
      rw [foldIn_var, folds_var]
      constructor
      · rintro ⟨_, init, hinit, h⟩
        exact ⟨init, tabled_eq.1 hinit, ih.1 h⟩
      · rintro ⟨init, hinit, h⟩
        exact ⟨(), init, tabled_eq.2 hinit, ih.2 h⟩
    · have other : ∀ k name, e ≠ .var k name := fun k name he => hvar ⟨k, name, he⟩
      rw [foldIn_step other]
      exact ⟨foldStep_imp other fun a c _ => ih.1, foldStep_imp other fun a c _ => ih.2⟩

end Expr

/-! ## Resolving names -/

namespace Consts

variable {constants module earlier : Table Expr} {known scope outer : Consts} {x : String} {init : Expr}

theorem resolve_mono (h : ∀ x init, earlier.find? x = some init → module.find? x = some init)
    (hx : resolve earlier scope x = some (outer, init)) :
    resolve module scope x = some (outer, init) := by
  induction scope with
  | nil =>
    obtain ⟨_, hfound, hx⟩ := Option.map_eq_some_iff.1 hx
    cases hx
    rw [resolve, h x _ hfound]
    rfl
  | cons entry scope ih =>
    obtain ⟨name, value⟩ := entry
    rw [resolve] at hx ⊢
    split at hx
    · rename_i e
      rwa [if_pos e]
    · rename_i e
      rw [if_neg e]
      exact ih hx

/-- The table that a parser has made of constants in scope, over those of the module. -/
def table (constants : Table Expr) (scope : Consts) : Table Expr :=
  scope.foldr (fun entry known => known.insert entry.1 entry.2) constants

theorem find?_table (constants : Table Expr) (scope : Consts) (x : String) :
    (table constants scope).find? x = (resolve constants scope x).map Prod.snd := by
  induction scope with
  | nil =>
    rw [resolve, Option.map_map]
    exact Option.map_id'.symm
  | cons entry scope ih =>
    obtain ⟨name, init⟩ := entry
    rw [resolve]
    split
    · rename_i e
      rw [← e]
      exact Table.find?_insert_self _ _ _
    · rename_i e
      exact (Table.find?_insert_of_ne _ _ (Ne.symm e)).trans ih

/-! ## Scopes and tables -/

/-- A name that the value of an expression depends on, with the constants in scope where the name is
read: in the expression, or in the initializer of a constant that is such a name. -/
inductive Reached (constants : Table Expr) (scope : Consts) (e : Expr) : Consts → String → Prop where
  | here {x : String} : e.Reads x → Reached constants scope e scope x
  | behind {env outer : Consts} {x y : String} {init : Expr} : Reached constants scope e env x →
    resolve constants env x = some (outer, init) → init.Reads y → Reached constants scope e outer y

/-- Each name that the value depends on stands for the same initializer at another place as where it is
read: none of the constants that are known there hides it. -/
def Agree (constants : Table Expr) (known scope : Consts) (e : Expr) : Prop :=
  ∀ env x, Reached constants scope e env x →
    (resolve constants known x).map Prod.snd = (resolve constants env x).map Prod.snd

open Wgsl.Expr

variable {depth : Nat} {e : Expr} {c : Constant}

/-- Folding over the table is folding by scopes. -/
theorem Agree.folds (h : Agree constants known scope e) : Folds (table constants known) depth e c ↔
    (foldIn (resolve constants) depth scope e).run = .ok (some c) := by
  rw [← foldIn_tabled]
  constructor
  · refine foldIn_imp (R := fun _ env x => Reached constants scope e env x)
      (fun _ env x _ init reached hinit => ?_) fun _ => .here
    rw [tabled_eq, find?_table, h env x reached] at hinit
    obtain ⟨⟨outer, _⟩, hfound, rfl⟩ := Option.map_eq_some_iff.1 hinit
    exact ⟨outer, hfound, fun y hy => .behind reached hfound hy⟩
  · refine foldIn_imp (R := fun env _ x => Reached constants scope e env x)
      (fun env _ x outer init reached hinit => ⟨(), tabled_eq.2 ?_, fun y hy => ?_⟩) fun _ => .here
    · rw [find?_table, h env x reached, hinit]
      rfl
    · exact .behind reached hinit hy

theorem Agree.foldsUInt32 (h : Agree constants known scope e) {n : UInt32} :
    foldUInt32 (table constants known) e = .ok (some n) ↔
      foldScopedUInt32 constants scope e = .ok (some n) := by
  refine counted_some.trans (Iff.trans ?_ counted_some.symm)
  exact exists_congr fun c => and_congr_left' h.folds

/-- More constants of the module change no value. -/
theorem foldIn_mono (h : ∀ x init, earlier.find? x = some init → module.find? x = some init)
    (he : (foldIn (resolve earlier) depth scope e).run = .ok (some c)) :
    (foldIn (resolve module) depth scope e).run = .ok (some c) := by
  refine foldIn_imp (R := fun env env' _ => env = env')
    (fun env env' x outer init alike hinit => ⟨outer, ?_, fun _ _ => rfl⟩) (fun _ _ => rfl) he
  rw [← alike]
  exact resolve_mono h hinit

/-- A count is the value by scopes if it folds where it stands, over constants that agree with those in
scope. If it folds only over all constants of the module, these have to agree as well. -/
theorem Agree.scoped_of_counted (h : Agree earlier known scope e)
    (hearlier : ∀ x init, earlier.find? x = some init → module.find? x = some init) {n : UInt32}
    (hcount : foldUInt32 (table earlier known) e = .ok (some n) ∨
      (∀ m, foldUInt32 (table earlier known) e ≠ .ok (some m)) ∧ foldUInt32 module e = .ok (some n))
    (hlate : (∃ m, foldScopedUInt32 earlier scope e = .ok (some m)) ∨ Agree module [] scope e) :
    foldScopedUInt32 module scope e = .ok (some n) := by
  obtain here | ⟨nowhere, late⟩ := hcount
  · obtain ⟨c, hc, hn⟩ := counted_some.1 (h.foldsUInt32.1 here)
    exact counted_some.2 ⟨c, foldIn_mono hearlier hc, hn⟩
  · obtain ⟨m, hm⟩ | agree := hlate
    · exact absurd (h.foldsUInt32.2 hm) (nowhere m)
    · exact agree.foldsUInt32.1 late

end Consts

end Wgsl
