import Mathlib
import Wgsl.Proofs.Scope.Lookup

/-! # The arena after any work on it

Scopes are opened, closed, and written to in any order. The index of a closed scope is given out
again, and a scope may hang off any open one, not only off the last.

* `WellFormed`, `Reachable.wellFormed`: the root is there and has no parent, every other scope hangs
  off one with a smaller index, and no scope binds a name twice.
* `Chain`, `exists_chain`: the scopes from one outward to the root.
* `Chain.lookupWithin_eq`: a lookup gives the first binding on the chain, whatever its budget is, if
  it is enough for the chain.
* `Inside`, `inside_foldl`: what becomes of the scopes below one that is not closed.
* `findIn?_foldl`: a name keeps the value that was written last.
* `Reachable.well_scoped`: all of it for every arena that is reached from the empty one.
-/

namespace Wgsl.ScopeArena
set_option autoImplicit false

variable {α : Type} {a b : ScopeArena α} {id k : Nat} {name : String} {v : α} {s : Scope α}

/-! ## Work on an arena -/

/-- One piece of work on an arena. -/
inductive Op (α : Type) where
  | push (parent : ScopeId)
  | pop (id : ScopeId)
  | insert (id : ScopeId) (name : String) (value : α)
  | replace (id : ScopeId) (name : String) (value : α)

namespace Op

/-- The arena after the work. -/
def run (a : ScopeArena α) : Op α → ScopeArena α
  | push parent => (a.push parent).1
  | pop id => a.pop id
  | insert id name value => a.insert id name value
  | replace id name value => a.replace id name value

/-- A scope is opened below an open one; all else may be asked of any index. -/
def Allowed (a : ScopeArena α) : Op α → Prop
  | push parent => a.isLive parent = true
  | _ => True

/-- The scope is not closed, nor one that was opened before it. -/
def Spares (id : ScopeId) : Op α → Prop
  | pop k => id < k
  | _ => True

/-- The scope that is written to. -/
def addressee? : Op α → Option ScopeId
  | insert id _ _ => some id
  | replace id _ _ => some id
  | _ => none

/-- The name that is written to, with its scope. -/
def target? : Op α → Option (ScopeId × String)
  | insert id name _ => some (id, name)
  | replace id name _ => some (id, name)
  | _ => none

/-- What a scope becomes when it is written to. -/
def write (s : Scope α) : Op α → Scope α
  | insert _ name value => s.insert name value
  | replace _ name value => if (s.find? name).isSome then s.insert name value else s
  | _ => s

end Op

/-- The arenas that work of any kind leads to from the one with an empty root. -/
inductive Reachable : ScopeArena α → Prop
  | new : Reachable new
  | run {a : ScopeArena α} (op : Op α) : Reachable a → op.Allowed a → Reachable (op.run a)

/-! ## One scope after each operation -/

theorem isLive_iff : a.isLive id = true ↔ id < a.depth := by
  rw [isLive, depth, decide_eq_true_eq]

theorem lt_depth_of_scope? (h : a.scope? id = some s) : id < a.depth :=
  (Array.getElem?_eq_some_iff.1 h).1

theorem exists_scope? (h : id < a.depth) : ∃ s, a.scope? id = some s :=
  ⟨a.scopes[id], Array.getElem?_eq_getElem h⟩

theorem findIn?_eq (h : a.scope? id = some s) (name : String) : a.findIn? id name = s.find? name := by
  rw [findIn?, h, Option.bind_some]

theorem parent?_eq (h : a.scope? id = some s) : a.parent? id = s.parent := by
  rw [parent?, h, Option.bind_some]

theorem scope?_push (parent k : ScopeId) : (a.push parent).1.scope? k =
    if k = a.depth then some (Scope.empty (some parent)) else a.scope? k := by
  rw [scope?, push, Array.getElem?_push]
  rfl

theorem scope?_insert (id k : ScopeId) (name : String) (v : α) : (a.insert id name v).scope? k =
    if id = k then (a.scope? k).map fun s => s.insert name v else a.scope? k := by
  rw [scope?, insert, Array.getElem?_modify]
  rfl

theorem scope?_replace (id k : ScopeId) (name : String) (v : α) : (a.replace id name v).scope? k =
    if id = k then (a.scope? k).map fun s => if (s.find? name).isSome then s.insert name v else s
    else a.scope? k := by
  by_cases hk : id = k
  · subst hk
    rw [if_pos rfl, replace]
    cases hs : a.scope? id with
    | none =>
      rw [findIn?, hs, Option.bind_none, if_neg (by simp), hs]
      rfl
    | some s =>
      rw [findIn?_eq hs]
      by_cases hfound : (s.find? name).isSome = true
      · rw [if_pos hfound, scope?_insert, if_pos rfl, hs, Option.map_some, Option.map_some, if_pos hfound]
      · rw [if_neg hfound, hs, Option.map_some, if_neg hfound]
  · rw [if_neg hk, replace]
    split
    · rw [scope?_insert, if_neg hk]
    · rfl

theorem depth_replace : (a.replace id name v).depth = a.depth := by
  rw [replace]
  split
  · exact depth_insert
  · rfl

/-- What a closed scope leaves. -/
theorem scope?_of_pop (h : (a.pop id).scope? k = some s) : a.scope? k = some s := by
  by_cases hin : 0 < id ∧ id < a.depth
  · have hlt := lt_depth_of_scope? h
    rw [depth_pop hin.1 hin.2] at hlt
    rwa [scope?_pop hlt] at h
  · rwa [show a.pop id = a from if_neg hin] at h

/-! ## Well-formed arenas -/

/-- The root stands at the bottom, every other scope behind its parent, and no scope binds a name
twice. -/
structure WellFormed (a : ScopeArena α) : Prop where
  root : ∃ s, a.scope? root = some s ∧ s.parent = none
  parent : ∀ (id : Nat) (s : Scope α), 0 < id → a.scope? id = some s →
    ∃ p : Nat, s.parent = some p ∧ p < id
  names : ∀ id s, a.scope? id = some s → (s.bindings.map Prod.fst).Nodup

theorem WellFormed.depth_pos (h : a.WellFormed) : 0 < a.depth := by
  obtain ⟨s, hs, -⟩ := h.root
  exact lt_depth_of_scope? hs

theorem WellFormed.new : (new : ScopeArena α).WellFormed := by
  have only : ∀ (id : Nat) (s : Scope α), (ScopeArena.new : ScopeArena α).scope? id = some s →
      id = 0 ∧ s = Scope.empty none := by
    intro id s h
    have hid : id < 1 := lt_depth_of_scope? h
    obtain rfl : id = 0 := by omega
    exact ⟨rfl, (Option.some.inj h).symm⟩
  refine ⟨⟨_, rfl, rfl⟩, fun id s hid h => ?_, fun id s h => ?_⟩
  · rw [(only id s h).1] at hid
    cases hid
  · rw [(only id s h).2]
    exact List.nodup_nil

theorem WellFormed.push (h : a.WellFormed) {p : Nat} (hp : p < a.depth) :
    (a.push p).1.WellFormed where
  root := by
    obtain ⟨s, hs, hparent⟩ := h.root
    exact ⟨s, by rw [scope?_push, if_neg (show ScopeArena.root ≠ a.depth from h.depth_pos.ne), hs], hparent⟩
  parent := by
    intro id s hid hs
    rw [scope?_push] at hs
    split at hs
    · rename_i heq
      cases hs
      exact ⟨p, rfl, heq ▸ hp⟩
    · exact h.parent id s hid hs
  names := by
    intro id s hs
    rw [scope?_push] at hs
    split at hs
    · cases hs
      exact List.nodup_nil
    · exact h.names id s hs

theorem WellFormed.pop (h : a.WellFormed) (id : ScopeId) : (a.pop id).WellFormed where
  root := by
    obtain ⟨s, hs, hparent⟩ := h.root
    refine ⟨s, ?_, hparent⟩
    obtain hid | hid := Nat.eq_zero_or_pos id
    · rwa [show a.pop id = a from if_neg fun hin => hin.1.ne' hid]
    · rw [scope?_pop (show ScopeArena.root < id from hid), hs]
  parent := fun k s hk hs => h.parent k s hk (scope?_of_pop hs)
  names := fun k s hs => h.names k s (scope?_of_pop hs)

/-- Writing to the scopes keeps their parents, and their names distinct. -/
theorem WellFormed.of_writes (h : a.WellFormed)
    (hw : ∀ k, ∃ f : Scope α → Scope α, b.scope? k = (a.scope? k).map f ∧ ∀ s,
      (f s).parent = s.parent ∧ ((s.bindings.map Prod.fst).Nodup →
        ((f s).bindings.map Prod.fst).Nodup)) : b.WellFormed where
  root := by
    obtain ⟨s, hs, hparent⟩ := h.root
    obtain ⟨f, hb, hf⟩ := hw ScopeArena.root
    exact ⟨f s, by rw [hb, hs, Option.map_some], by rw [(hf s).1, hparent]⟩
  parent := by
    intro k s hk hs
    obtain ⟨f, hb, hf⟩ := hw k
    obtain ⟨u, hu, rfl⟩ := Option.map_eq_some_iff.1 (hb ▸ hs)
    rw [(hf u).1]
    exact h.parent k u hk hu
  names := by
    intro k s hs
    obtain ⟨f, hb, hf⟩ := hw k
    obtain ⟨u, hu, rfl⟩ := Option.map_eq_some_iff.1 (hb ▸ hs)
    exact (hf u).2 (h.names k u hu)

theorem names_scope_insert (hs : (s.bindings.map Prod.fst).Nodup) (name : String) (v : α) :
    ((s.insert name v).bindings.map Prod.fst).Nodup := Table.nodup_insert hs name v

theorem WellFormed.insert (h : a.WellFormed) : (a.insert id name v).WellFormed := by
  refine h.of_writes fun k => ?_
  rw [scope?_insert]
  split
  · exact ⟨_, rfl, fun s => ⟨rfl, fun hs => names_scope_insert hs name v⟩⟩
  · exact ⟨fun s => s, by simp, fun s => ⟨rfl, fun hs => hs⟩⟩

theorem WellFormed.replace (h : a.WellFormed) : (a.replace id name v).WellFormed := by
  rw [ScopeArena.replace]
  split
  · exact h.insert
  · exact h

/-- One piece of work keeps the arena well-formed. -/
theorem WellFormed.run (h : a.WellFormed) {op : Op α} (hop : op.Allowed a) : (op.run a).WellFormed := by
  cases op with
  | push p => exact h.push (isLive_iff.1 hop)
  | pop id => exact h.pop id
  | insert id name value => exact h.insert
  | replace id name value => exact h.replace

theorem Reachable.wellFormed (h : a.Reachable) : a.WellFormed := by
  induction h with
  | new => exact WellFormed.new
  | run op _ hop ih => exact ih.run hop

/-! ## Lookups along the chain of parents -/

/-- The scopes from one outward, each the parent of the one before it. -/
inductive Chain (a : ScopeArena α) : ScopeId → List ScopeId → Prop
  | last {id : ScopeId} {s : Scope α} : a.scope? id = some s → s.parent = none → Chain a id [id]
  | cons {id p : ScopeId} {s : Scope α} {outer : List ScopeId} : a.scope? id = some s →
      s.parent = some p → Chain a p outer → Chain a id (id :: outer)

/-- The first binding of a name on a chain, with the scope that has it. -/
def firstBinding (a : ScopeArena α) (name : String) (chain : List ScopeId) : Option (ScopeId × α) :=
  chain.findSome? fun k => (a.findIn? k name).map fun v => (k, v)

/-- From every open scope a chain leads to the root, each index on it smaller than the one before. -/
theorem exists_chain (h : a.WellFormed) (id : Nat) (hid : id < a.depth) :
    ∃ chain, a.Chain id chain ∧ chain.length ≤ id + 1 ∧ chain.getLast? = some root := by
  induction id using Nat.strong_induction_on with
  | _ id ih =>
    obtain ⟨s, hs⟩ := exists_scope? hid
    obtain rfl | hpos := Nat.eq_zero_or_pos id
    · obtain ⟨u, hu, hparent⟩ := h.root
      obtain rfl : s = u := Option.some.inj (hs.symm.trans hu)
      exact ⟨[0], .last hs hparent, le_rfl, rfl⟩
    · obtain ⟨p, hparent, hlt⟩ := h.parent id s hpos hs
      obtain ⟨outer, hchain, hlength, hlast⟩ := ih p hlt (hlt.trans hid)
      refine ⟨id :: outer, .cons hs hparent hchain, ?_, ?_⟩
      · rw [List.length_cons]
        omega
      · obtain ⟨k, rest, rfl⟩ := List.exists_cons_of_ne_nil (l := outer) (by rintro rfl; cases hlast)
        rw [List.getLast?_cons_cons, hlast]

theorem Chain.lookupWithin_eq {chain : List ScopeId} (h : a.Chain id chain) {budget : Nat}
    (hb : chain.length ≤ budget) : a.lookupWithin name budget id = a.firstBinding name chain := by
  induction h generalizing budget with
  | @last id s hs hparent =>
    obtain ⟨n, rfl⟩ : ∃ n, budget = n + 1 := ⟨budget - 1, by simp at hb; omega⟩
    rw [lookupWithin_succ, parent?_eq hs, hparent, Option.bind_none, Option.or_none, firstBinding,
      List.findSome?_singleton]
  | @cons id p s outer hs hparent _ ih =>
    rw [List.length_cons] at hb
    obtain ⟨n, rfl⟩ : ∃ n, budget = n + 1 := ⟨budget - 1, by omega⟩
    rw [lookupWithin_succ, parent?_eq hs, hparent, Option.bind_some, ih (Nat.le_of_succ_le_succ hb),
      firstBinding, firstBinding, List.findSome?_cons]
    cases a.findIn? id name <;> rfl

/-- In an arena that is well-formed a lookup gives the first binding on the way to the root. -/
theorem WellFormed.lookup_eq (h : a.WellFormed) (hid : id < a.depth) (name : String) :
    ∃ chain, a.Chain id chain ∧ chain.getLast? = some ScopeArena.root ∧
      (∀ budget, chain.length ≤ budget → a.lookupWithin name budget id = a.firstBinding name chain) ∧
      a.lookup id name = a.firstBinding name chain := by
  obtain ⟨chain, hchain, hlength, hlast⟩ := exists_chain h id hid
  exact ⟨chain, hchain, hlast, fun budget => hchain.lookupWithin_eq,
    hchain.lookupWithin_eq (hlength.trans hid)⟩

theorem lookup_of_depth_le (h : a.depth ≤ id) : a.lookup id name = none := by
  rw [lookup]
  cases a.depth with
  | zero => rfl
  | succ n => rw [lookupWithin_succ, findIn?_of_depth_le h, parent?_of_depth_le h]; rfl

/-! ## Opening and closing around other work -/

/-- The writes to a scope, in their order. -/
def writesTo (k : ScopeId) (ops : List (Op α)) : List (Op α) :=
  ops.filter fun op => op.addressee? = some k

/-- Work that does not close the scopes below `id` leaves them but for the writes to each. -/
structure Inside (id : Nat) (a b : ScopeArena α) (ops : List (Op α)) : Prop where
  depth : id < b.depth
  scopes : ∀ k : Nat, k < id → b.scope? k = (a.scope? k).map fun s => (writesTo k ops).foldl Op.write s

/-- What one piece of work makes of a scope below. -/
theorem scope?_run {op : Op α} (hop : op.Spares id) (hd : id < a.depth) (hk : k < id) :
    (op.run a).scope? k = (a.scope? k).map fun s => (writesTo k [op]).foldl Op.write s := by
  have same : ∀ x : Option (Scope α), x = x.map fun s => s := fun x => by simp
  cases op with
  | push p =>
    rw [Op.run, scope?_push, if_neg (hk.trans hd).ne]
    exact same _
  | pop n =>
    rw [Op.run, scope?_pop (hk.trans hop)]
    exact same _
  | insert n name value =>
    rw [Op.run, scope?_insert]
    by_cases hn : n = k
    · subst hn
      simp [writesTo, Op.addressee?, Op.write]
    · simp [writesTo, Op.addressee?, hn]
  | replace n name value =>
    rw [Op.run, scope?_replace]
    by_cases hn : n = k
    · subst hn
      simp [writesTo, Op.addressee?, Op.write]
    · simp [writesTo, Op.addressee?, hn]

theorem lt_depth_run {op : Op α} (hop : op.Spares id) (hd : id < a.depth) : id < (op.run a).depth := by
  cases op with
  | push p =>
    rw [Op.run, depth_push]
    omega
  | pop n =>
    have hlt : id < n := hop
    rw [Op.run]
    by_cases hn : n < a.depth
    · rwa [depth_pop (Nat.zero_lt_of_lt hlt) hn]
    · rwa [show a.pop n = a from if_neg fun hin => hn hin.2]
  | insert n name value => rwa [Op.run, depth_insert]
  | replace n name value => rwa [Op.run, depth_replace]

theorem inside_foldl (hd : id < a.depth) (ops : List (Op α)) (hops : ∀ op ∈ ops, op.Spares id) :
    Inside id a (ops.foldl Op.run a) ops := by
  induction ops using List.reverseRecOn with
  | nil => exact ⟨hd, fun k _ => by simp [writesTo]⟩
  | append_singleton ops op ih =>
    have hop : op.Spares id := hops op (by simp)
    have hin := ih fun op hop => hops op (by simp [hop])
    rw [List.foldl_concat]
    refine ⟨lt_depth_run hop hin.depth, fun k hk => ?_⟩
    rw [scope?_run hop hin.depth hk, hin.scopes k hk, Option.map_map]
    congr 1
    funext s
    rw [Function.comp_apply, ← List.foldl_append, writesTo, writesTo, writesTo, List.filter_append]

/-- Closing a scope that was opened leaves the scopes that were open before, each as the writes to it
have made it. -/
theorem pop_push_run (hpos : 0 < a.depth) (parent : ScopeId) (ops : List (Op α))
    (hops : ∀ op ∈ ops, op.Spares (a.push parent).2) :
    ((ops.foldl Op.run (a.push parent).1).pop (a.push parent).2).depth = a.depth ∧
    ∀ k : Nat, k < a.depth → ((ops.foldl Op.run (a.push parent).1).pop (a.push parent).2).scope? k =
      (a.scope? k).map fun s => (writesTo k ops).foldl Op.write s := by
  have hopened : (a.push parent).2 = a.depth := rfl
  rw [hopened] at hops ⊢
  have hin := inside_foldl (a := (a.push parent).1) (by rw [depth_push]; omega) ops hops
  refine ⟨depth_pop hpos hin.depth, fun k hk => ?_⟩
  rw [scope?_pop hk, hin.scopes k hk, scope?_push, if_neg hk.ne]

/-! ## The value written last -/

theorem findIn?_run {op : Op α} (hop : op.Spares id) (ht : op.target? ≠ some (id, name)) :
    (op.run a).findIn? id name = a.findIn? id name := by
  have elsewhere : ∀ {k : ScopeId} {other : String}, some (k, other) ≠ some (id, name) →
      id ≠ k ∨ name ≠ other := by
    intro k other hne
    by_contra same
    obtain ⟨rfl, rfl⟩ := not_or.1 same |>.imp not_not.1 not_not.1
    exact hne rfl
  cases op with
  | push p => exact findIn?_push
  | pop n => exact findIn?_pop hop
  | insert n other v => exact findIn?_insert_of_ne (elsewhere ht)
  | replace n other v =>
    rw [Op.run, replace]
    split
    · exact findIn?_insert_of_ne (elsewhere ht)
    · rfl

/-- Work that neither closes a scope nor writes to a name of it leaves the value of the name. -/
theorem findIn?_foldl (ops : List (Op α))
    (hops : ∀ op ∈ ops, op.Spares id ∧ op.target? ≠ some (id, name)) :
    (ops.foldl Op.run a).findIn? id name = a.findIn? id name := by
  induction ops generalizing a with
  | nil => rfl
  | cons op rest ih =>
    obtain ⟨⟨spares, elsewhere⟩, others⟩ := List.forall_mem_cons.1 hops
    rw [List.foldl_cons, ih others, findIn?_run spares elsewhere]

/-! ## Every arena that is reached -/

/-- In every arena that is reached the root stays, every other scope hangs off one with a smaller
index and no scope binds a name twice; a lookup ends at the first binding on the way to the root, and
finds under a name of the scope the value that was written last; and closing a scope leaves those that
were open before it, with what was written to them. -/
theorem Reachable.well_scoped (h : a.Reachable) : a.WellFormed ∧
    (∀ id name, (a.isLive id = true → ∃ chain, a.Chain id chain ∧ chain.getLast? = some root ∧
        (∀ budget, chain.length ≤ budget →
          a.lookupWithin name budget id = a.firstBinding name chain) ∧
        a.lookup id name = a.firstBinding name chain) ∧
      (a.isLive id = false → a.lookup id name = none)) ∧
    (∀ id name v (ops : List (Op α)), (∀ op ∈ ops, op.Spares id ∧ op.target? ≠ some (id, name)) →
      (a.isLive id = true →
        (ops.foldl Op.run (a.insert id name v)).lookup id name = some (id, v)) ∧
      ((a.findIn? id name).isSome = true →
        (ops.foldl Op.run (a.replace id name v)).lookup id name = some (id, v)) ∧
      (ops.foldl Op.run a).findIn? id name = a.findIn? id name) ∧
    ∀ parent ops, a.isLive parent = true → (∀ op ∈ ops, op.Spares (a.push parent).2) →
      ((ops.foldl Op.run (a.push parent).1).pop (a.push parent).2).depth = a.depth ∧
      ∀ k : Nat, k < a.depth → ((ops.foldl Op.run (a.push parent).1).pop (a.push parent).2).scope? k =
        (a.scope? k).map fun s => (writesTo k ops).foldl Op.write s := by
  have hwell := h.wellFormed
  refine ⟨hwell, fun id name => ⟨fun hid => ?_, fun hid => ?_⟩, fun id name v ops hops =>
    ⟨fun hid => lookup_of_findIn? ?_, fun hbound => lookup_of_findIn? ?_, findIn?_foldl ops hops⟩,
    fun parent ops _ hops => ?_⟩
  · exact hwell.lookup_eq (isLive_iff.1 hid) name
  · refine lookup_of_depth_le (Nat.le_of_not_lt fun hlt => ?_)
    rw [isLive_iff.2 hlt] at hid
    cases hid
  · rw [findIn?_foldl ops hops, findIn?_insert_self (isLive_iff.1 hid)]
  · obtain ⟨u, hu⟩ := Option.isSome_iff_exists.1 hbound
    rw [findIn?_foldl ops hops, replace, if_pos hbound, findIn?_insert_self (lt_depth_of_findIn? hu)]
  · exact pop_push_run hwell.depth_pos parent ops hops

/-- A block and a call, both hanging off the root. -/
def blockAndCall : ScopeArena Nat :=
  ⟨#[⟨none, [("x", 1)]⟩, ⟨some 0, [("x", 2)]⟩, ⟨some 0, []⟩]⟩

theorem reachable_blockAndCall : blockAndCall.Reachable :=
  .run (.push 0) (.run (.insert 1 "x" 2) (.run (.push 0) (.run (.insert 0 "x" 1) .new trivial) rfl)
    trivial) rfl

/-- Work below and above a scope that is opened off the block and closed again. -/
def inBetween : List (Op Nat) :=
  [.insert 3 "y" 5, .replace 1 "x" 7, .push 3, .replace 1 "y" 8, .pop 4, .insert 0 "z" 9]

/-- Work that leaves the `x` of the block. -/
def aside : List (Op Nat) := [.insert 0 "x" 5, .push 1, .insert 1 "y" 6, .pop 2]

theorem Reachable.well_scoped_blockAndCall : blockAndCall.Reachable ∧
    (∀ op ∈ aside, op.Spares 1 ∧ op.target? ≠ some (1, "x")) ∧
    (aside.foldl Op.run (blockAndCall.insert 1 "x" 3)).lookup 1 "x" = some (1, 3) ∧
    (aside.foldl Op.run (blockAndCall.replace 1 "x" 4)).lookup 1 "x" = some (1, 4) ∧
    (∀ op ∈ inBetween, op.Spares (blockAndCall.push 1).2) ∧
    let closed := (inBetween.foldl Op.run (blockAndCall.push 1).1).pop (blockAndCall.push 1).2
    closed.depth = 3 ∧ closed.scope? 0 = some ⟨none, [("x", 1), ("z", 9)]⟩ ∧
    closed.scope? 1 = some ⟨some 0, [("x", 7)]⟩ ∧ closed.scope? 2 = some ⟨some 0, []⟩ := by
  have spares : ∀ op ∈ inBetween, op.Spares (blockAndCall.push 1).2 := by
    simp only [inBetween, List.mem_cons, List.not_mem_nil, or_false, forall_eq_or_imp, forall_eq]
    exact ⟨trivial, trivial, trivial, trivial, show 3 < 4 by decide, trivial⟩
  have leaves : ∀ op ∈ aside, op.Spares 1 ∧ op.target? ≠ some (1, "x") := by
    simp only [aside, List.mem_cons, List.not_mem_nil, or_false, forall_eq_or_imp, forall_eq]
    exact ⟨⟨trivial, by decide⟩, ⟨trivial, by decide⟩, ⟨trivial, by decide⟩, show 1 < 2 by decide,
      by decide⟩
  obtain ⟨-, -, hlast, hclosed⟩ := Reachable.well_scoped reachable_blockAndCall
  obtain ⟨hinsert, -⟩ := hlast 1 "x" 3 aside leaves
  obtain ⟨-, hreplace, -⟩ := hlast 1 "x" 4 aside leaves
  obtain ⟨hdepth, hscope⟩ := hclosed 1 inBetween rfl spares
  exact ⟨reachable_blockAndCall, leaves, hinsert rfl, hreplace rfl, spares, hdepth, hscope 0 (by decide), hscope 1 (by decide),
    hscope 2 (by decide)⟩

end Wgsl.ScopeArena
