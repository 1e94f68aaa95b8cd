import Mathlib.Tactic
import Wgsl.Machine.Dispatch

/-! # Resources that are bound and handed back

The host's resources are moved into memory, one for each variable, and handed back to their slots
after the run.

* `Machine.bindResource_eq`: what one variable takes from the host, and where it is kept.
* `Machine.Keeps`: everything taken is still held, the rest is still with the host.
* `Machine.keeps_bindResources`: by induction over the variables.
* `Machine.find?_handBack`: the contents of a slot after handing back.
-/

namespace Wgsl
set_option autoImplicit false

/-! ## Slots -/

namespace BindGroups

variable {g : BindGroups} {slot other : BindSlot} {r : HostResource}

theorem find?_insert_self : (g.insert slot r).find? slot = some r := by
  obtain ⟨entries⟩ := g
  unfold insert find?
  dsimp only
  induction entries with
  | nil => simp [insertEntry]
  | cons e entries ih =>
    obtain ⟨k, o⟩ := e
    unfold insertEntry
    split
    · simp
    · split
      · simp
      · rename_i hne _
        rw [List.lookup_cons, beq_false_of_ne hne]
        exact ih

theorem find?_insert_of_ne (h : other ≠ slot) : (g.insert slot r).find? other = g.find? other := by
  obtain ⟨entries⟩ := g
  unfold insert find?
  dsimp only
  induction entries with
  | nil => simp [insertEntry, List.lookup_cons, beq_false_of_ne h]
  | cons e entries ih =>
    obtain ⟨k, o⟩ := e
    unfold insertEntry
    split
    · rename_i hk
      subst hk
      rw [List.lookup_cons, List.lookup_cons, beq_false_of_ne h]
    · split
      · rw [List.lookup_cons, beq_false_of_ne h]
      · rw [List.lookup_cons, List.lookup_cons, ih]

theorem find?_erase_self : (g.erase slot).find? slot = none := by
  unfold erase find?
  rw [List.lookup_eq_none_iff]
  intro e he
  have hne := of_decide_eq_true (List.mem_filter.1 he).2
  exact bne_iff_ne.2 fun h => hne h.symm

theorem find?_erase_of_ne (h : other ≠ slot) : (g.erase slot).find? other = g.find? other := by
  obtain ⟨entries⟩ := g
  unfold erase find?
  dsimp only
  induction entries with
  | nil => rfl
  | cons e entries ih =>
    obtain ⟨k, o⟩ := e
    rw [List.filter_cons, List.lookup_cons]
    by_cases hk : k = slot
    · subst hk
      rw [beq_false_of_ne h, ← ih]
      simp
    · simp only [hk, ne_eq, not_false_eq_true, decide_true, if_true, List.lookup_cons, ih]

end BindGroups

/-- The slot of a variable. -/
def Resource.slot (r : Resource) : BindSlot := ⟨r.group, r.binding⟩

/-- The slot that a bound resource came from. -/
def Bound.slot : Bound → BindSlot
  | .buffer slot _ _ => slot
  | .texture slot _ => slot
  | .sampler slot => slot

/-- The kind of host resource that a variable declares. -/
def ResourceKind.accepts : ResourceKind → HostResource → Bool
  | .uniform, .uniform _ => true
  | .storage, .storage _ => true
  | .texture, .texture .. => true
  | .storageTexture, .texture .. => true
  | .sampler, .sampler => true
  | _, _ => false

/-! ## What a variable takes -/

namespace Machine

variable {m : Machine} {g : BindGroups} {r : Resource}

/-- The machine with a buffer in memory and a view of it bound to the variable. -/
def takeBuffer (m : Machine) (r : Resource) (bytes : Array UInt8) (uniform : Bool) : Machine :=
  ({ m with memory := (m.memory.addBuffer bytes).1 }.noteBound
    (.buffer r.slot m.memory.buffers.size uniform)).bind ScopeArena.root r.name
    (.view ⟨m.memory.buffers.size, 0, r.type⟩)

/-- The machine with a texture in memory and bound to the variable. -/
def takeTexture (m : Machine) (r : Resource) (t : Texture) : Machine :=
  ({ m with memory := (m.memory.addTexture t).1 }.noteBound
    (.texture r.slot m.memory.textures.size)).bind ScopeArena.root r.name
    (.value (.texture m.memory.textures.size))

/-- The machine that has taken a resource for a variable. -/
def take (m : Machine) (r : Resource) : HostResource → Machine
  | .uniform bytes => m.takeBuffer r bytes true
  | .storage bytes => m.takeBuffer r bytes false
  | .texture data size format => m.takeTexture r (Texture.withView { data, size, format } r.type.name)
  | .sampler => (m.noteBound (.sampler r.slot)).bind ScopeArena.root r.name (.value .sampler)

/-- The machine after a variable whose slot is empty; a sampler variable needs no resource. -/
def pass (m : Machine) (r : Resource) : Machine :=
  match r.kind with
  | .sampler => m.bind ScopeArena.root r.name (.value .sampler)
  | _ => m

theorem bindResource_of_some {h : HostResource} (hh : g.find? r.slot = some h)
    (hk : r.kind.accepts h = true) : m.bindResource r g = (m.take r h, g.erase r.slot) := by
  have hh' : g.find? ⟨r.group, r.binding⟩ = some h := hh
  unfold bindResource
  dsimp only
  rw [hh']
  unfold ResourceKind.accepts at hk
  cases hkind : r.kind <;> rw [hkind] at hk <;> cases h <;> first | rfl | cases hk

theorem bindResource_of_none (hh : g.find? r.slot = none) : m.bindResource r g = (m.pass r, g) := by
  have hh' : g.find? ⟨r.group, r.binding⟩ = none := hh
  unfold bindResource pass
  dsimp only
  rw [hh']
  cases r.kind <;> rfl

/-! ## What is held -/

/-- The note of the resource that is taken for a variable. -/
def entry (m : Machine) (r : Resource) : HostResource → Bound
  | .uniform _ => .buffer r.slot m.memory.buffers.size true
  | .storage _ => .buffer r.slot m.memory.buffers.size false
  | .texture .. => .texture r.slot m.memory.textures.size
  | .sampler => .sampler r.slot

/-- The bound resource is in memory. -/
def Holds (m : Machine) : Bound → Prop
  | .buffer _ i _ => i < m.memory.buffers.size
  | .texture _ i => i < m.memory.textures.size
  | .sampler _ => True

variable {h : HostResource} {x : Bound}

theorem slot_entry : (m.entry r h).slot = r.slot := by cases h <;> rfl

theorem bound_take : (m.take r h).bound = m.bound ++ [m.entry r h] := by cases h <;> rfl

theorem holds_take (hx : m.Holds x) : (m.take r h).Holds x := by
  have pushed : ∀ {α : Type} (a : Array α) (v : α) {i : Nat}, i < a.size → i < (a.push v).size := by
    intro α a v i hi
    rw [Array.size_push]
    exact Nat.lt_succ_of_lt hi
  cases h <;> cases x <;> first | exact pushed _ _ hx | exact hx

theorem holds_entry : (m.take r h).Holds (m.entry r h) := by
  have pushed : ∀ {α : Type} (a : Array α) (v : α), a.size < (a.push v).size := by
    intro α a v
    rw [Array.size_push]
    exact Nat.lt_succ_self _
  cases h <;> first | exact pushed _ _ | exact trivial

theorem released_take (hx : m.Holds x) : (m.take r h).released x = m.released x := by
  have pushed : ∀ {α : Type} (a : Array α) (v : α) {i : Nat}, i < a.size →
      (a.push v)[i]? = a[i]? := by
    intro α a v i hi
    rw [Array.getElem?_push, if_neg (Nat.ne_of_lt hi)]
  cases x with
  | buffer slot i uniform =>
    have same := fun bytes => congrArg (fun o : Option (Array UInt8) =>
      some (slot, if uniform then HostResource.uniform (o.getD #[]) else .storage (o.getD #[])))
      (pushed m.memory.buffers bytes hx)
    cases h with
    | uniform bytes => exact same bytes
    | storage bytes => exact same bytes
    | _ => rfl
  | texture slot i =>
    cases h with
    | texture data size format =>
      exact congrArg
        (Option.map fun t : Texture => (slot, HostResource.texture t.data t.size t.format))
        (pushed m.memory.textures _ hx)
    | _ => rfl
  | sampler slot => cases h <;> rfl

theorem released_entry : (m.take r h).released (m.entry r h) = some (r.slot, h) := by
  have pushed : ∀ {α : Type} (a : Array α) (v : α), (a.push v)[a.size]? = some v := by
    intro α a v
    rw [Array.getElem?_push, if_pos rfl]
  cases h with
  | uniform bytes =>
    exact congrArg (fun o : Option (Array UInt8) => some (r.slot, HostResource.uniform (o.getD #[])))
      (pushed m.memory.buffers bytes)
  | storage bytes =>
    exact congrArg (fun o : Option (Array UInt8) => some (r.slot, HostResource.storage (o.getD #[])))
      (pushed m.memory.buffers bytes)
  | texture data size format =>
    exact congrArg
      (Option.map fun t : Texture => (r.slot, HostResource.texture t.data t.size t.format))
      (pushed m.memory.textures _)
  | sampler => rfl

/-- All that was taken from the host is held as it was there, and the host has the rest. -/
structure Keeps (m : Machine) (start g : BindGroups) : Prop where
  held : ∀ x ∈ m.bound, ∃ h, m.released x = some (x.slot, h) ∧ start.find? x.slot = some h
  inMemory : ∀ x ∈ m.bound, m.Holds x
  rest : ∀ slot, (∀ x ∈ m.bound, x.slot ≠ slot) → g.find? slot = start.find? slot

variable {start : BindGroups}

theorem Keeps.take (hk : m.Keeps start g) (hnew : ∀ x ∈ m.bound, x.slot ≠ r.slot)
    (hh : g.find? r.slot = some h) : (m.take r h).Keeps start (g.erase r.slot) where
  held x hx := by
    rw [bound_take, List.mem_append, List.mem_singleton] at hx
    obtain hx | rfl := hx
    · rw [released_take (hk.inMemory x hx)]
      exact hk.held x hx
    · rw [slot_entry]
      exact ⟨h, released_entry, hk.rest r.slot hnew ▸ hh⟩
  inMemory x hx := by
    rw [bound_take, List.mem_append, List.mem_singleton] at hx
    obtain hx | rfl := hx
    · exact holds_take (hk.inMemory x hx)
    · exact holds_entry
  rest slot hslot := by
    rw [bound_take] at hslot
    have hne : slot ≠ r.slot := by
      have := hslot _ (List.mem_append_right _ List.mem_cons_self)
      rw [slot_entry] at this
      exact this.symm
    rw [BindGroups.find?_erase_of_ne hne]
    exact hk.rest slot fun x hx => hslot x (List.mem_append_left _ hx)

theorem Keeps.pass (hk : m.Keeps start g) : (m.pass r).Keeps start g := by
  unfold Machine.pass
  cases r.kind <;> exact ⟨hk.held, hk.inMemory, hk.rest⟩

/-- One more variable: what it takes is held, and its slot alone is touched. -/
theorem Keeps.bindResource (hk : m.Keeps start g) (hnew : ∀ x ∈ m.bound, x.slot ≠ r.slot)
    (hacc : ∀ h, start.find? r.slot = some h → r.kind.accepts h = true) :
    (m.bindResource r g).1.Keeps start (m.bindResource r g).2 ∧
      ∀ x ∈ (m.bindResource r g).1.bound, x ∈ m.bound ∨ x.slot = r.slot := by
  cases hh : g.find? r.slot with
  | none =>
    rw [bindResource_of_none hh]
    refine ⟨hk.pass, fun x hx => Or.inl ?_⟩
    unfold Machine.pass at hx
    cases hkind : r.kind <;> rw [hkind] at hx <;> exact hx
  | some h =>
    rw [bindResource_of_some hh (hacc h (hk.rest r.slot hnew ▸ hh))]
    refine ⟨hk.take hnew hh, fun x hx => ?_⟩
    rw [bound_take, List.mem_append, List.mem_singleton] at hx
    refine hx.imp id fun e => ?_
    rw [e, slot_entry]

/-! ## Handing back -/

/-- What a slot holds after one more resource is handed back. -/
def handed (m : Machine) (slot : BindSlot) (found : Option HostResource) (x : Bound) :
    Option HostResource :=
  if x.slot = slot then ((m.released x).map Prod.snd).or found else found

theorem released_slot {s : BindSlot} (hx : m.released x = some (s, h)) : s = x.slot := by
  cases x with
  | buffer slot i uniform => exact (Prod.mk.inj (Option.some.inj hx)).1.symm
  | texture slot i =>
    unfold released at hx
    obtain ⟨t, -, ht⟩ := Option.map_eq_some_iff.1 hx
    exact (Prod.mk.inj ht).1.symm
  | sampler slot => exact (Prod.mk.inj (Option.some.inj hx)).1.symm

theorem find?_handBack (m : Machine) (g : BindGroups) (slot : BindSlot) :
    (m.handBack g).find? slot = m.bound.foldl (m.handed slot) (g.find? slot) := by
  unfold handBack
  induction m.bound generalizing g with
  | nil => rfl
  | cons x bound ih =>
    rw [List.foldl_cons]
    cases hx : m.released x with
    | none =>
      rw [List.filterMap_cons_none hx, ih]
      unfold handed
      rw [hx]
      simp
    | some e =>
      obtain ⟨s, h⟩ := e
      have hs := released_slot hx
      subst hs
      rw [List.filterMap_cons_some hx, List.foldl_cons, ih]
      unfold handed
      rw [hx]
      by_cases hslot : x.slot = slot
      · subst hslot
        rw [if_pos rfl, BindGroups.find?_insert_self]
        rfl
      · rw [if_neg hslot, BindGroups.find?_insert_of_ne (fun e => hslot e.symm)]

/-- A slot whose resource is held as it was gets it back. -/
theorem find?_handBack_of_held {final : Machine} {slot : BindSlot} (hk : m.Keeps start g)
    (hbound : final.bound = m.bound)
    (hsame : ∀ x ∈ m.bound, x.slot = slot → final.released x = m.released x) :
    (final.handBack g).find? slot = start.find? slot := by
  rw [find?_handBack, hbound]
  suffices aux : ∀ (bound : List Bound) (found : Option HostResource), (∀ x ∈ bound, x ∈ m.bound) →
      (found = start.find? slot ∨ ∃ x ∈ bound, x.slot = slot) →
      bound.foldl (final.handed slot) found = start.find? slot by
    refine aux m.bound _ (fun x hx => hx) ?_
    by_cases hex : ∃ x ∈ m.bound, x.slot = slot
    · exact Or.inr hex
    · exact Or.inl (hk.rest slot fun x hx e => hex ⟨x, hx, e⟩)
  intro bound
  induction bound with
  | nil => exact fun found _ h => h.resolve_right fun ⟨x, hx, _⟩ => (List.not_mem_nil hx).elim
  | cons x bound ih =>
    intro found hin hfound
    rw [List.foldl_cons]
    refine ih _ (fun y hy => hin y (List.mem_cons_of_mem _ hy)) ?_
    by_cases hslot : x.slot = slot
    · left
      obtain ⟨h, hr, hs⟩ := hk.held x (hin x List.mem_cons_self)
      unfold handed
      rw [if_pos hslot, hsame x (hin x List.mem_cons_self) hslot, hr, ← hslot, hs]
      rfl
    · unfold handed
      rw [if_neg hslot]
      refine hfound.imp id fun ⟨y, hy, hys⟩ => ⟨y, ?_, hys⟩
      exact (List.mem_cons.1 hy).resolve_left fun e => hslot (e ▸ hys)

end Machine

end Wgsl
