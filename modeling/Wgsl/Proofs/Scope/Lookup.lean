import Mathlib.Tactic
import Wgsl.Scope

/-! # Looking up names

What a lookup finds, in terms of the bindings and the parent of each scope. In a nested arena a
parent is opened before its children, so a lookup ends, and neither scopes opened later nor the
number of open scopes matter to it.
-/

namespace Wgsl
set_option autoImplicit false

/-! ## Names of a table -/

namespace Table

variable {α : Type} {t t' : Table α} {name : String}

/-- A new name comes last. -/
theorem names_insert (t : Table α) (name : String) (v : α) : (t.insert name v).map Prod.fst =
    if name ∈ t.map Prod.fst then t.map Prod.fst else t.map Prod.fst ++ [name] := by
  induction t with
  | nil => rfl
  | cons b t ih =>
    obtain ⟨n, w⟩ := b
    unfold insert
    by_cases hn : n = name
    · simp [hn]
    · rw [if_neg hn, List.map_cons, ih]
      by_cases hmem : name ∈ t.map Prod.fst
      · simp [hmem]
      · simp [hmem, Ne.symm hn]

theorem nodup_insert (h : (t.map Prod.fst).Nodup) (name : String) (v : α) :
    ((t.insert name v).map Prod.fst).Nodup := by
  rw [names_insert]
  split
  · exact h
  · exact h.append (List.nodup_singleton name) (List.disjoint_singleton.2 ‹_›)

theorem find?_of_not_mem (h : name ∉ t.map Prod.fst) : t.find? name = none := by
  refine List.lookup_eq_none_iff.2 fun p hp => bne_iff_ne.2 fun e => h ?_
  rw [e]
  exact List.mem_map_of_mem hp

theorem names_insert_of_find? {u : α} (h : t.find? name = some u) (v : α) :
    (t.insert name v).map Prod.fst = t.map Prod.fst := by
  rw [names_insert, if_pos]
  by_contra absent
  rw [find?_of_not_mem absent] at h
  cases h

/-- A table of distinct names is known by what it gives for each. -/
theorem eq_of_find? (h : (t.map Prod.fst).Nodup) (keys : t'.map Prod.fst = t.map Prod.fst)
    (same : ∀ name, t'.find? name = t.find? name) : t' = t := by
  induction t generalizing t' with
  | nil => exact List.map_eq_nil_iff.1 keys
  | cons b t ih =>
    obtain ⟨n, v⟩ := b
    obtain ⟨⟨n', v'⟩, t', rfl⟩ : ∃ b' r', t' = b' :: r' := List.exists_cons_of_ne_nil fun e => by
      subst e
      cases keys
    rw [List.map_cons, List.map_cons, List.cons.injEq] at keys
    obtain ⟨rfl, keys⟩ := keys
    rw [List.map_cons, List.nodup_cons] at h
    have head : v' = v := by
      have := same n'
      simpa [find?] using this
    have tail : t' = t := by
      refine ih h.2 keys fun name => ?_
      by_cases hname : name = n'
      · subst hname
        rw [find?_of_not_mem h.1, find?_of_not_mem (keys ▸ h.1)]
      · have := same name
        rwa [find?, find?, List.lookup_cons, List.lookup_cons, beq_eq_false_iff_ne.2 hname] at this
    rw [head, tail]

end Table

namespace ScopeArena

variable {α : Type} {a b : ScopeArena α} {id k parent : Nat} {name other : String} {v : α}

/-! ## Bindings and parents after each operation -/

theorem findIn?_of_depth_le (h : a.depth ≤ id) : a.findIn? id name = none := by
  unfold findIn? scope?
  rw [Array.getElem?_eq_none h]
  rfl

theorem parent?_of_depth_le (h : a.depth ≤ id) : a.parent? id = none := by
  unfold parent? scope?
  rw [Array.getElem?_eq_none h]
  rfl

theorem lt_depth_of_findIn? (h : a.findIn? id name = some v) : id < a.depth := by
  by_contra hlt
  rw [findIn?_of_depth_le (Nat.le_of_not_lt hlt)] at h
  cases h

theorem lt_depth_of_parent? (h : a.parent? id = some parent) : id < a.depth := by
  by_contra hlt
  rw [parent?_of_depth_le (Nat.le_of_not_lt hlt)] at h
  cases h

@[simp] theorem depth_push : (a.push parent).1.depth = a.depth + 1 := by
  simp [push, depth]

@[simp] theorem findIn?_push : (a.push parent).1.findIn? id name = a.findIn? id name := by
  by_cases h : id = a.depth
  · subst h
    rw [findIn?_of_depth_le (Nat.le_refl _)]
    simp [findIn?, scope?, push, depth, Scope.empty, Scope.find?]
  · unfold findIn? scope? push
    rw [Array.getElem?_push]
    exact congrArg (fun s => Option.bind s _) (if_neg h)

theorem parent?_push_of_ne (h : id ≠ a.depth) : (a.push parent).1.parent? id = a.parent? id := by
  unfold parent? scope? push
  rw [Array.getElem?_push]
  exact congrArg (fun s => Option.bind s _) (if_neg h)

@[simp] theorem parent?_push_depth : (a.push parent).1.parent? a.depth = some parent := by
  simp [parent?, scope?, push, depth, Scope.empty]

@[simp] theorem depth_insert : (a.insert id name v).depth = a.depth := by
  simp [insert, depth]

@[simp] theorem parent?_insert : (a.insert id name v).parent? k = a.parent? k := by
  unfold parent? scope? insert
  rw [Array.getElem?_modify]
  split
  · cases a.scopes[k]? <;> rfl
  · rfl

theorem findIn?_insert_self (h : id < a.depth) : (a.insert id name v).findIn? id name = some v := by
  unfold findIn? scope? insert
  rw [Array.getElem?_modify, if_pos rfl, Array.getElem?_eq_getElem h]
  exact Table.find?_insert_self _ _ _

theorem findIn?_insert_of_ne (h : k ≠ id ∨ other ≠ name) :
    (a.insert id name v).findIn? k other = a.findIn? k other := by
  unfold findIn? scope? insert
  rw [Array.getElem?_modify]
  split
  · rename_i hk
    have hn : other ≠ name := h.resolve_left fun e => e hk.symm
    cases a.scopes[k]? with
    | none => rfl
    | some s => exact Table.find?_insert_of_ne _ _ hn
  · rfl

theorem depth_pop (h₀ : 0 < id) (h : id < a.depth) : (a.pop id).depth = id := by
  unfold pop
  rw [if_pos ⟨h₀, h⟩]
  simp only [depth, Array.take_eq_extract, Array.size_extract]
  unfold depth at h
  omega

theorem scope?_pop (h : k < id) : (a.pop id).scope? k = a.scope? k := by
  unfold pop
  split
  · rename_i hid
    simp only [scope?, Array.take_eq_extract, Array.getElem?_extract]
    have hlt : k < a.scopes.size := Nat.lt_trans h hid.2
    rw [if_pos (by omega), Nat.zero_add]
  · rfl

theorem findIn?_pop (h : k < id) : (a.pop id).findIn? k name = a.findIn? k name := by
  unfold findIn?
  rw [scope?_pop h]

theorem parent?_pop (h : k < id) : (a.pop id).parent? k = a.parent? k := by
  unfold parent?
  rw [scope?_pop h]

/-! ## Nested arenas -/

/-- Every scope is opened after its parent. -/
def Nested (a : ScopeArena α) : Prop := ∀ id parent : Nat, a.parent? id = some parent → parent < id

theorem nested_new : (new : ScopeArena α).Nested := by
  intro id parent h
  have hid : id < 1 := lt_depth_of_parent? h
  obtain rfl : id = 0 := by omega
  cases h

theorem Nested.push (h : a.Nested) (hp : parent < a.depth) : (a.push parent).1.Nested := by
  intro id p hid
  by_cases hd : id = a.depth
  · subst hd
    rw [parent?_push_depth] at hid
    cases hid
    exact hp
  · rw [parent?_push_of_ne hd] at hid
    exact h id p hid

theorem Nested.insert (h : a.Nested) : (a.insert id name v).Nested := by
  intro k p hk
  rw [parent?_insert] at hk
  exact h k p hk

theorem Nested.pop (h : a.Nested) : (a.pop id).Nested := by
  intro k p hk
  by_cases hin : 0 < id ∧ id < a.depth
  · have hlt := lt_depth_of_parent? hk
    rw [depth_pop hin.1 hin.2] at hlt
    rw [parent?_pop hlt] at hk
    exact h k p hk
  · rw [show a.pop id = a from if_neg hin] at hk
    exact h k p hk

/-! ## Lookups -/

theorem lookupWithin_succ (budget : Nat) : a.lookupWithin name (budget + 1) id =
    ((a.findIn? id name).map fun v => (id, v)).or
      ((a.parent? id).bind fun parent => a.lookupWithin name budget parent) := by
  rw [lookupWithin]
  unfold findIn? parent?
  cases a.scope? id with
  | none => rfl
  | some s =>
    simp only [Option.bind_some]
    cases s.find? name with
    | some v => rfl
    | none => cases s.parent <;> rfl

/-- What a lookup finds is bound in a scope. -/
theorem findIn?_of_lookupWithin {owner : ScopeId} {v : α} (budget : Nat) {id : ScopeId}
    (h : a.lookupWithin name budget id = some (owner, v)) : a.findIn? owner name = some v := by
  induction budget generalizing id with
  | zero => cases h
  | succ budget ih =>
    rw [lookupWithin_succ] at h
    cases hf : a.findIn? id name with
    | some u =>
      rw [hf] at h
      cases h
      exact hf
    | none =>
      rw [hf] at h
      obtain ⟨parent, -, h⟩ := Option.bind_eq_some_iff.1 h
      exact ih h

/-- A budget above the index of the scope is enough. -/
theorem Nested.lookupWithin_eq (h : a.Nested) (id : Nat) :
    ∀ budget, id < budget → a.lookupWithin name budget id = a.lookupWithin name (id + 1) id := by
  induction id using Nat.strong_induction_on with
  | _ id ih =>
    intro budget hb
    obtain ⟨budget, rfl⟩ : ∃ n, budget = n + 1 := ⟨budget - 1, by omega⟩
    rw [lookupWithin_succ, lookupWithin_succ]
    cases hp : a.parent? id with
    | none => rfl
    | some parent =>
      have hlt : parent < id := h id parent hp
      simp only [Option.bind_some]
      rw [ih parent hlt budget (Nat.lt_of_lt_of_le hlt (Nat.le_of_lt_succ hb)), ih parent hlt id hlt]

theorem lookup_of_findIn? (h : a.findIn? id name = some v) : a.lookup id name = some (id, v) := by
  have hlt := lt_depth_of_findIn? h
  unfold lookup
  obtain ⟨n, hn⟩ : ∃ n, a.depth = n + 1 := ⟨a.depth - 1, by omega⟩
  rw [hn, lookupWithin_succ, h]
  rfl

theorem Nested.lookup_of_none (hn : a.Nested) (h : a.findIn? id name = none) :
    a.lookup id name = (a.parent? id).bind fun parent => a.lookup parent name := by
  unfold lookup
  cases hp : a.parent? id with
  | none =>
    cases a.depth with
    | zero => rfl
    | succ n =>
      rw [lookupWithin_succ, h, hp]
      rfl
  | some parent =>
    have hlt := hn id parent hp
    have hd := lt_depth_of_parent? hp
    obtain ⟨n, hn'⟩ : ∃ n, a.depth = n + 1 := ⟨a.depth - 1, by omega⟩
    rw [hn', lookupWithin_succ, h, hp]
    simp only [Option.map_none, Option.none_or, Option.bind_some]
    rw [hn.lookupWithin_eq parent n (by omega), hn.lookupWithin_eq parent (n + 1) (by omega)]

/-- A lookup sees no scope behind the one it starts from. -/
theorem Nested.lookup_congr (ha : a.Nested) (hb : b.Nested) (id : Nat)
    (hf : ∀ k ≤ id, a.findIn? k name = b.findIn? k name)
    (hp : ∀ k ≤ id, a.parent? k = b.parent? k) : a.lookup id name = b.lookup id name := by
  induction id using Nat.strong_induction_on with
  | _ id ih =>
    cases hfound : a.findIn? id name with
    | some v =>
      rw [lookup_of_findIn? hfound, lookup_of_findIn? (hf id (Nat.le_refl _) ▸ hfound)]
    | none =>
      rw [ha.lookup_of_none hfound, hb.lookup_of_none (hf id (Nat.le_refl _) ▸ hfound),
        ← hp id (Nat.le_refl _)]
      cases hpar : a.parent? id with
      | none => rfl
      | some parent =>
        have hlt := ha id parent hpar
        exact ih parent hlt (fun k hk => hf k (by omega)) fun k hk => hp k (by omega)

/-- What a lookup finds is bound where it says. -/
theorem Nested.findIn?_of_lookup (h : a.Nested) (id : Nat) {owner : Nat}
    (hl : a.lookup id name = some (owner, v)) : a.findIn? owner name = some v ∧ owner ≤ id := by
  induction id using Nat.strong_induction_on with
  | _ id ih =>
    cases hfound : a.findIn? id name with
    | some u =>
      rw [lookup_of_findIn? hfound] at hl
      cases hl
      exact ⟨hfound, Nat.le_refl _⟩
    | none =>
      rw [h.lookup_of_none hfound] at hl
      cases hpar : a.parent? id with
      | none =>
        rw [hpar] at hl
        cases hl
      | some parent =>
        rw [hpar] at hl
        have hlt := h id parent hpar
        obtain ⟨hv, hle⟩ := ih parent hlt hl
        exact ⟨hv, by omega⟩

end ScopeArena

end Wgsl
