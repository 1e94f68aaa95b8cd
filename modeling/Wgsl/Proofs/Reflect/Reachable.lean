import Mathlib.Data.List.Perm.Subperm
import Mathlib.Logic.Relation
import Mathlib.Tactic.Common
import Wgsl.CallGraph

/-! # Reachable functions are closed under calls

The walk through a call graph leaves out a callee only while it is being walked further out, so what
it has collected at the end contains the callees of all it contains. A path repeats no function, and
every function on it calls another, so the budget of the walk is never used up.
-/

namespace Wgsl.CallGraph
set_option autoImplicit false

variable {g : CallGraph} {path order found rest : List String} {name : String}

/-- What a part of a walk has added: its callees are added too, or being walked. -/
structure Adds (g : CallGraph) (path order found : List String) : Prop where
  grown : ∀ x ∈ order, x ∈ found
  closed : ∀ x ∈ found, x ∉ order → ∀ y ∈ g.direct x, y ∈ found ∨ y ∈ path

theorem Adds.refl : Adds g path order order := ⟨fun _ h => h, fun _ h hn => absurd h hn⟩

theorem Adds.trans (h : Adds g path order found) (h' : Adds g path found rest) :
    Adds g path order rest where
  grown x hx := h'.grown x (h.grown x hx)
  closed x hx hn y hy := by
    by_cases hf : x ∈ found
    · exact (h.closed x hf hn y hy).imp (h'.grown y) id
    · exact h'.closed x hx hf y hy

/-- Callees that are walked one after another. -/
theorem adds_foldl {visit : List String → String → List String}
    (h : ∀ order name, Adds g path order (visit order name) ∧
      (name ∈ visit order name ∨ name ∈ path)) (names order : List String) :
    Adds g path order (names.foldl visit order) ∧
      ∀ name ∈ names, name ∈ names.foldl visit order ∨ name ∈ path := by
  induction names generalizing order with
  | nil => exact ⟨.refl, nofun⟩
  | cons name names ih =>
    obtain ⟨first, hname⟩ := h order name
    obtain ⟨others, hnames⟩ := ih (visit order name)
    refine ⟨first.trans others, List.forall_mem_cons.2 ⟨?_, hnames⟩⟩
    exact hname.imp (others.grown name) id

theorem mem_keys_of_direct {callee : String} (h : callee ∈ g.direct name) :
    name ∈ g.map Prod.fst := by
  unfold direct Table.find? at h
  cases hl : List.lookup name g with
  | none =>
    rw [hl] at h
    cases h
  | some callees =>
    clear h
    induction g with
    | nil => cases hl
    | cons entry g ih =>
      rw [List.lookup_cons] at hl
      split at hl
      · rename_i he
        rw [List.map_cons, eq_of_beq he]
        exact List.mem_cons_self
      · exact List.mem_cons_of_mem _ (ih hl)

theorem length_path_le (hn : path.Nodup) (hk : ∀ x ∈ path, x ∈ g.map Prod.fst) :
    path.length ≤ g.length := by
  have h := (List.subperm_of_subset hn hk).length_le
  rwa [List.length_map] at h

/-- A walk with enough budget adds the function, unless it is being walked already. -/
theorem walk_adds (budget : Nat) : ∀ (path order : List String) (name : String), path.Nodup →
    (∀ x ∈ path, x ∈ g.map Prod.fst) → g.length + 2 ≤ budget + path.length →
    Adds g path order (g.walk budget path order name) ∧
      (name ∈ g.walk budget path order name ∨ name ∈ path) := by
  induction budget with
  | zero =>
    intro path order name hn hk hb
    have hle := length_path_le hn hk
    omega
  | succ budget ih =>
    intro path order name hn hk hb
    rw [walk]
    split
    · rename_i hseen
      rw [Bool.or_eq_true, List.contains_iff_mem, List.contains_iff_mem] at hseen
      exact ⟨.refl, hseen⟩
    · rename_i hseen
      rw [Bool.or_eq_true, List.contains_iff_mem, List.contains_iff_mem, not_or] at hseen
      -- the function is on the path of its callees, so it is a function that calls
      have inner : ∀ callee ∈ g.direct name, ∀ order callee',
          Adds g (name :: path) order (g.walk budget (name :: path) order callee') ∧
            (callee' ∈ g.walk budget (name :: path) order callee' ∨ callee' ∈ name :: path) := by
        intro callee hc order callee'
        refine ih (name :: path) order callee' (List.nodup_cons.2 ⟨hseen.2, hn⟩) ?_ ?_
        · exact List.forall_mem_cons.2 ⟨mem_keys_of_direct hc, hk⟩
        · rw [List.length_cons]
          omega
      have callees : Adds g (name :: path) order ((g.direct name).foldl
            (fun o callee => g.walk budget (name :: path) o callee) order) ∧
          ∀ callee ∈ g.direct name, callee ∈ (g.direct name).foldl
            (fun o callee => g.walk budget (name :: path) o callee) order ∨ callee ∈ name :: path := by
        cases hd : g.direct name with
        | nil => exact ⟨.refl, nofun⟩
        | cons first more => exact adds_foldl (inner first (by rw [hd]; exact List.mem_cons_self)) _ _
      obtain ⟨adds, hcallees⟩ := callees
      generalize (g.direct name).foldl (fun o callee => g.walk budget (name :: path) o callee) order = o
        at adds hcallees
      -- a callee that is added, or on the path, is in the order with the function behind it
      have settled : ∀ {y}, y ∈ o ∨ y ∈ name :: path → y ∈ o ++ [name] ∨ y ∈ path := by
        rintro y (hy | hy)
        · exact Or.inl (List.mem_append_left _ hy)
        · obtain rfl | hy := List.mem_cons.1 hy
          · exact Or.inl (List.mem_append_right _ List.mem_cons_self)
          · exact Or.inr hy
      refine ⟨⟨fun x hx => List.mem_append_left _ (adds.grown x hx), ?_⟩, ?_⟩
      · intro x hx hnot y hy
        obtain hx | hx := List.mem_append.1 hx
        · exact settled (adds.closed x hx hnot y hy)
        · obtain rfl := List.mem_singleton.1 hx
          exact settled (hcallees y hy)
      · exact Or.inl (List.mem_append_right _ List.mem_cons_self)

variable (g)

theorem mem_transitive_self (start : String) : start ∈ g.transitive start := by
  obtain ⟨-, h⟩ := walk_adds (g := g) g.walkBudget [] [] start List.nodup_nil nofun (Nat.le_refl _)
  exact h.resolve_right nofun

/-- What can be reached contains the callees of all it contains. -/
theorem direct_mem_transitive {start caller callee : String} (h : caller ∈ g.transitive start)
    (hc : callee ∈ g.direct caller) : callee ∈ g.transitive start := by
  obtain ⟨adds, -⟩ := walk_adds (g := g) g.walkBudget [] [] start List.nodup_nil nofun (Nat.le_refl _)
  exact (adds.closed caller h nofun callee hc).resolve_right nofun

variable {g}

/-- A walk adds only what can be reached from where it begins. -/
theorem walk_reaches (budget : Nat) : ∀ (path order : List String) (name : String),
    ∀ x ∈ g.walk budget path order name,
      x ∈ order ∨ Relation.ReflTransGen (fun a b => b ∈ g.direct a) name x := by
  induction budget with
  | zero => exact fun path order name x hx => .inl hx
  | succ budget ih =>
    intro path order name x hx
    rw [walk] at hx
    split at hx
    · exact .inl hx
    · have callees : ∀ (names order : List String), (∀ y ∈ names, y ∈ g.direct name) →
          ∀ x ∈ names.foldl (fun o callee => g.walk budget (name :: path) o callee) order,
            x ∈ order ∨ Relation.ReflTransGen (fun a b => b ∈ g.direct a) name x := by
        intro names
        induction names with
        | nil => exact fun order _ x hx => .inl hx
        | cons callee names ihNames =>
          intro order hnames x hx
          obtain hx | hx := ihNames _ (fun y hy => hnames y (List.mem_cons_of_mem _ hy)) x hx
          · obtain hx | hx := ih _ _ _ x hx
            · exact .inl hx
            · exact .inr (.head (hnames callee List.mem_cons_self) hx)
          · exact .inr hx
      obtain hx | hx := List.mem_append.1 hx
      · exact callees _ _ (fun _ h => h) x hx
      · obtain rfl := List.mem_singleton.1 hx
        exact .inr .refl

/-- What is collected is what can be reached. -/
theorem mem_transitive_iff {start x : String} :
    x ∈ g.transitive start ↔ Relation.ReflTransGen (fun a b => b ∈ g.direct a) start x := by
  constructor
  · intro hx
    exact (walk_reaches _ _ _ _ x hx).resolve_left List.not_mem_nil
  · intro h
    induction h with
    | refl => exact g.mem_transitive_self start
    | tail _ hc ih => exact g.direct_mem_transitive ih hc

end Wgsl.CallGraph
