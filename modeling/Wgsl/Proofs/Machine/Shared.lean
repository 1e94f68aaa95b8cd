import Wgsl.Proofs.Machine.Binding
import Wgsl.Proofs.Machine.Module

/-! # Resources bound in two runs

Two hosts that agree on some slots hand their resources to two runs. The resources in these slots get
counterparts, the others are hidden.

* `Bridge.Extends`: more buffers and textures have counterparts, and nothing that stood for each
  other comes apart.
* `Bridge.Shares`: what two runs hold when some of the variables are bound.
* `Bridge.shares_bindResources`: by induction over the variables.
* `Bridge.find?_handBack_eq`: the slots that are shared get the same back.
-/

namespace Wgsl
set_option autoImplicit false

open Value (rename)

/-! ## Matched arrays -/

/-- The map leads from places in one array to places in another that hold the same. -/
structure Matched {α : Type} (f : Nat → Option Nat) (a a' : Array α) : Prop where
  within : ∀ {i j}, f i = some j → i < a.size ∧ j < a'.size
  same : ∀ i j, f i = some j → a'[j]? = a[i]?

/-- The map with one place added. -/
def matchLast (f : Nat → Option Nat) (i j : Nat) : Nat → Option Nat :=
  fun k => if k = i then some j else f k

theorem matchLast_self {f : Nat → Option Nat} {i j : Nat} : matchLast f i j i = some j := if_pos rfl

theorem matchLast_of_ne {f : Nat → Option Nat} {i j k : Nat} (h : k ≠ i) :
    matchLast f i j k = f k := if_neg h

namespace Matched

variable {α : Type} {f : Nat → Option Nat} {a a' : Array α}

theorem fresh (h : Matched f a a') : f a.size = none := by
  cases hf : f a.size with
  | none => rfl
  | some j => exact absurd (h.within hf).1 (Nat.lt_irrefl _)

theorem fresh' (h : Matched f a a') (i : Nat) : f i ≠ some a'.size :=
  fun hf => absurd (h.within hf).2 (Nat.lt_irrefl _)

/-- A value that is put at the end of both arrays. -/
theorem push (h : Matched f a a') (v : α) :
    Matched (matchLast f a.size a'.size) (a.push v) (a'.push v) where
  within {i j} hij := by
    rw [Array.size_push, Array.size_push]
    by_cases hi : i = a.size
    · subst hi
      rw [matchLast_self] at hij
      cases hij
      exact ⟨Nat.lt_succ_self _, Nat.lt_succ_self _⟩
    · rw [matchLast_of_ne hi] at hij
      exact ⟨Nat.lt_succ_of_lt (h.within hij).1, Nat.lt_succ_of_lt (h.within hij).2⟩
  same i j hij := by
    rw [Array.getElem?_push, Array.getElem?_push]
    by_cases hi : i = a.size
    · subst hi
      rw [matchLast_self] at hij
      cases hij
      rw [if_pos rfl, if_pos rfl]
    · rw [matchLast_of_ne hi] at hij
      rw [if_neg hi, if_neg (Nat.ne_of_lt (h.within hij).2)]
      exact h.same i j hij

/-- A value that is put at the end of one array. -/
theorem push_left (h : Matched f a a') (v : α) : Matched f (a.push v) a' where
  within hij := ⟨by rw [Array.size_push]; exact Nat.lt_succ_of_lt (h.within hij).1, (h.within hij).2⟩
  same i j hij := by
    rw [Array.getElem?_push, if_neg (Nat.ne_of_lt (h.within hij).1)]
    exact h.same i j hij

theorem push_right (h : Matched f a a') (v : α) : Matched f a (a'.push v) where
  within hij := ⟨(h.within hij).1, by rw [Array.size_push]; exact Nat.lt_succ_of_lt (h.within hij).2⟩
  same i j hij := by
    rw [Array.getElem?_push, if_neg (Nat.ne_of_lt (h.within hij).2)]
    exact h.same i j hij

theorem apart_matchLast {i j k : Nat} (hk : f k = none) (hlt : k < i) :
    matchLast f i j k = none := (matchLast_of_ne (Nat.ne_of_lt hlt)).trans hk

theorem apart'_matchLast {i j l : Nat} (hl : ∀ k, f k ≠ some l) (hlt : l < j) (k : Nat) :
    matchLast f i j k ≠ some l := by
  unfold matchLast
  split
  · exact fun e => Nat.ne_of_lt hlt (Option.some.inj e).symm
  · exact hl k

end Matched

namespace Bridge

variable {b c : Bridge}

/-! ## More counterparts -/

/-- The names hidden are the same, and what has a counterpart keeps it. -/
structure Extends (b c : Bridge) : Prop where
  hidden : c.hidden = b.hidden
  buffer : ∀ {i j}, b.buffer? i = some j → c.buffer? i = some j
  texture : ∀ {i j}, b.texture? i = some j → c.texture? i = some j

theorem Extends.refl (b : Bridge) : b.Extends b := ⟨rfl, id, id⟩

theorem Extends.open (h : b.Extends c) {q : Place} (hq : b.Open q) :
    c.Open q ∧ c.across.place q = b.across.place q := by
  obtain ⟨root, path⟩ := q
  cases root with
  | buffer view =>
    obtain ⟨j, hj⟩ := Option.isSome_iff_exists.1 hq
    have hj' := h.buffer hj
    refine ⟨Option.isSome_iff_exists.2 ⟨j, hj'⟩, ?_⟩
    simp only [across, hj, hj', Option.getD_some]
  | variable_ scope name =>
    refine ⟨?_, rfl⟩
    unfold Open at hq ⊢
    rw [h.hidden]
    exact hq

theorem Extends.values (h : b.Extends c) {v v' : Value} (hv : b.values v v') : c.values v v' := by
  obtain ⟨rfl, hw⟩ := hv
  constructor
  · refine (Value.rename_congr_of_fixed (fun q hq => ?_) (fun i hi => ?_) v hw).symm
    · exact (h.open (b.within_place_iff.1 hq)).2
    · obtain ⟨j, hj⟩ := b.within_texture_iff.1 hi
      simp only [across, hj, h.texture hj, Option.getD_some]
  · refine (Value.rename_congr_of_fixed (fun q hq => ?_) (fun i hi => ?_) v hw).trans hw
    · exact (c.within_place_iff.2 (h.open (b.within_place_iff.1 hq)).1).trans hq.symm
    · obtain ⟨j, hj⟩ := b.within_texture_iff.1 hi
      exact (c.within_texture_iff.2 ⟨j, h.texture hj⟩).trans hi.symm

theorem Extends.slots (h : b.Extends c) {s s' : Slot} (hs : b.slots s s') : c.slots s s' := by
  cases s with
  | value v =>
    obtain ⟨v', rfl, hv⟩ := hs
    exact ⟨v', rfl, h.values hv⟩
  | view view =>
    obtain ⟨j, rfl, hj⟩ := hs
    exact ⟨j, rfl, h.buffer hj⟩

theorem Extends.arenas (h : b.Extends c) {a a' : ScopeArena Slot} (ha : b.Arenas a a') :
    c.Arenas a a' where
  nested := ha.nested
  depth := ha.depth
  parents := ha.parents
  found id name hid := by
    rw [h.hidden] at hid
    have hrel := ha.found id name hid
    cases hf : a.findIn? id name with
    | none =>
      rw [hf] at hrel
      rw [rel_none hrel]
      exact .none
    | some s =>
      rw [hf] at hrel
      obtain ⟨s', hs', hs⟩ := rel_some hrel
      rw [hs']
      exact .some (h.slots hs)

theorem matchLast_inj {f : Nat → Option Nat} (hf : ∀ {i k j}, f i = some j → f k = some j → i = k)
    {i j : Nat} (hj : ∀ k, f k ≠ some j) {k l n : Nat} (hk : matchLast f i j k = some n)
    (hl : matchLast f i j l = some n) : k = l := by
  unfold matchLast at hk hl
  split at hk <;> split at hl
  · rename_i h h'
    rw [h, h']
  · cases hk
    exact absurd hl (hj l)
  · cases hl
    exact absurd hk (hj k)
  · exact hf hk hl

theorem of_matchLast {f : Nat → Option Nat} {i j k l : Nat} (hi : f i = none) (hk : f k = some l) :
    matchLast f i j k = some l := by
  have hne : k ≠ i := by
    rintro rfl
    rw [hi] at hk
    cases hk
  exact (matchLast_of_ne hne).trans hk

/-- A counterpart for one more buffer. -/
def withBuffer (b : Bridge) (i j : BufferId) (hj : ∀ k, b.buffer? k ≠ some j) : Bridge :=
  { b with buffer? := matchLast b.buffer? i j, buffer_inj := matchLast_inj b.buffer_inj hj }

/-- A counterpart for one more texture. -/
def withTexture (b : Bridge) (i j : TextureId) (hj : ∀ k, b.texture? k ≠ some j) : Bridge :=
  { b with texture? := matchLast b.texture? i j, texture_inj := matchLast_inj b.texture_inj hj }

theorem extends_withBuffer {i j : BufferId} {hj : ∀ k, b.buffer? k ≠ some j}
    (hi : b.buffer? i = none) : b.Extends (b.withBuffer i j hj) :=
  ⟨rfl, of_matchLast hi, id⟩

theorem extends_withTexture {i j : TextureId} {hj : ∀ k, b.texture? k ≠ some j}
    (hi : b.texture? i = none) : b.Extends (b.withTexture i j hj) :=
  ⟨rfl, id, of_matchLast hi⟩

/-! ## Hidden names in the root -/

variable {a a' : ScopeArena Slot}

/-- What a hidden name of the module is bound to in the first run does not matter. -/
theorem Arenas.hide (h : b.Arenas a a') {name : String} (hn : name ∈ b.hidden) (s : Slot) :
    b.Arenas (a.insert ScopeArena.root name s) a' where
  nested := h.nested.insert
  depth := by rw [ScopeArena.depth_insert, h.depth]
  parents id := by rw [ScopeArena.parent?_insert, h.parents]
  found id other hid := by
    have hne : id ≠ ScopeArena.root ∨ other ≠ name := by
      by_contra hcon
      rw [not_or, not_not, not_not] at hcon
      exact hid ⟨hcon.1, hcon.2 ▸ hn⟩
    rw [ScopeArena.findIn?_insert_of_ne hne]
    exact h.found id other hid

theorem Arenas.hide' (h : b.Arenas a a') {name : String} (hn : name ∈ b.hidden) (s : Slot) :
    b.Arenas a (a'.insert ScopeArena.root name s) where
  nested := h.nested
  depth := by rw [ScopeArena.depth_insert, h.depth]
  parents id := by rw [ScopeArena.parent?_insert, h.parents]
  found id other hid := by
    have hne : id ≠ ScopeArena.root ∨ other ≠ name := by
      by_contra hcon
      rw [not_or, not_not, not_not] at hcon
      exact hid ⟨hcon.1, hcon.2 ▸ hn⟩
    rw [ScopeArena.findIn?_insert_of_ne hne]
    exact h.found id other hid

/-! ## What two runs share -/

/-- Bound resources that stand for each other. -/
def pairs (b : Bridge) : Bound → Bound → Prop
  | .buffer slot i uniform, x' => ∃ j, x' = .buffer slot j uniform ∧ b.buffer? i = some j
  | .texture slot i, x' => ∃ j, x' = .texture slot j ∧ b.texture? i = some j
  | .sampler slot, x' => x' = .sampler slot

/-- The resource of the first run has no counterpart. -/
def Apart (b : Bridge) : Bound → Prop
  | .buffer _ i _ => b.buffer? i = none
  | .texture _ i => b.texture? i = none
  | .sampler _ => True

/-- The resource of the second run is no counterpart. -/
def Apart' (b : Bridge) : Bound → Prop
  | .buffer _ j _ => ∀ i, b.buffer? i ≠ some j
  | .texture _ j => ∀ i, b.texture? i ≠ some j
  | .sampler _ => True

/-- The resources that are bound in slots of a list. -/
def inSlots (shown : List BindSlot) (bound : List Bound) : List Bound :=
  bound.filter fun x => shown.contains x.slot

/-- Two machines with the variables of a module and some of their resources bound: those in the slots
that are shown stand for each other, and nothing else has a counterpart. -/
structure Shares (b : Bridge) (shown : List BindSlot) (vars : List VarDecl) (m m' : Machine) :
    Prop where
  related : b.Related (.ofModule vars m.memory m'.memory m.bound m'.bound) m m'
  buffers : Matched b.buffer? m.memory.buffers m'.memory.buffers
  textures : Matched b.texture? m.memory.textures m'.memory.textures
  bound : List.Forall₂ b.pairs (inSlots shown m.bound) (inSlots shown m'.bound)
  apart : ∀ x ∈ m.bound, x.slot ∉ shown → b.Apart x
  apart' : ∀ x ∈ m'.bound, x.slot ∉ shown → b.Apart' x

variable {shown : List BindSlot} {vars : List VarDecl} {m m' n n' : Machine} {r : Resource}
  {h : HostResource}

theorem carried_self {f g : Nat → Option Nat} {memory memory' : Memory}
    (hb : Matched f memory.buffers memory'.buffers)
    (ht : Matched g memory.textures memory'.textures) :
    Memory.Carried f g memory memory' memory memory' :=
  ⟨⟨hb.same, fun _ _ => rfl, fun _ _ => rfl⟩, ⟨ht.same, fun _ _ => rfl, fun _ _ => rfl⟩,
    fun _ _ h => (ht.within h).1⟩

/-- Machines that differ from related ones in their resources alone. -/
theorem Related.rebased {w : Situation} (hr : b.Related w m m') (hvars : w.vars = vars)
    (hn : n = { m with memory := n.memory, scopes := n.scopes, bound := n.bound })
    (hn' : n' = { m' with memory := n'.memory, scopes := n'.scopes, bound := n'.bound })
    (buffers : Matched c.buffer? n.memory.buffers n'.memory.buffers)
    (textures : Matched c.texture? n.memory.textures n'.memory.textures) (arenas : c.Arenas n.scopes n'.scopes) (depth : 0 < n.scopes.depth) :
    c.Related (.ofModule vars n.memory n'.memory n.bound n'.bound) n n' where
  layouts := by
    rw [hn, hn']
    exact hr.layouts
  diagnostics := by
    rw [hn, hn']
    exact hr.diagnostics
  callResults := by
    rw [hn]
    exact hr.callResults
  callResults' := by
    rw [hn']
    exact hr.callResults'
  moduleVars := by
    rw [hn]
    exact hr.moduleVars.trans hvars
  moduleVars' := by
    rw [hn']
    exact hr.moduleVars'.trans hvars
  callDepth := by
    rw [hn, hn']
    exact hr.callDepth
  discarded := by
    rw [hn, hn']
    exact hr.discarded
  bound := rfl
  bound' := rfl
  memory := carried_self buffers textures
  arenas := arenas
  frames f hf := by
    obtain rfl := List.mem_singleton.1 hf
    exact ⟨depth, fun _ h => h.elim⟩
  order _ hf := (List.not_mem_nil hf).elim
  inside h := h.elim

theorem Shares.depth (hs : b.Shares shown vars m m') : 0 < m.scopes.depth :=
  (hs.related.frames _ List.mem_cons_self).1

theorem take_eq : m.take r h = { m with
    memory := (m.take r h).memory, scopes := (m.take r h).scopes, bound := (m.take r h).bound } := by
  cases h <;> rfl

theorem Shares.take_left (hs : b.Shares shown vars m m') :
    Matched b.buffer? (m.take r h).memory.buffers m'.memory.buffers ∧
      Matched b.texture? (m.take r h).memory.textures m'.memory.textures := by
  cases h with
  | uniform bytes => exact ⟨hs.buffers.push_left bytes, hs.textures⟩
  | storage bytes => exact ⟨hs.buffers.push_left bytes, hs.textures⟩
  | texture data size format => exact ⟨hs.buffers, hs.textures.push_left _⟩
  | sampler => exact ⟨hs.buffers, hs.textures⟩

theorem Shares.take_right (hs : b.Shares shown vars m m') :
    Matched b.buffer? m.memory.buffers (m'.take r h).memory.buffers ∧
      Matched b.texture? m.memory.textures (m'.take r h).memory.textures := by
  cases h with
  | uniform bytes => exact ⟨hs.buffers.push_right bytes, hs.textures⟩
  | storage bytes => exact ⟨hs.buffers.push_right bytes, hs.textures⟩
  | texture data size format => exact ⟨hs.buffers, hs.textures.push_right _⟩
  | sampler => exact ⟨hs.buffers, hs.textures⟩

/-- Taking a resource binds its variable in the root. -/
theorem scopes_take : ∃ s, (m.take r h).scopes = m.scopes.insert ScopeArena.root r.name s := by
  cases h <;> exact ⟨_, rfl⟩

theorem inSlots_take (hslot : r.slot ∉ shown) :
    inSlots shown (m.take r h).bound = inSlots shown m.bound := by
  unfold inSlots
  rw [Machine.bound_take, List.filter_append]
  simp [Machine.slot_entry, hslot]

/-! ## One variable -/

/-- The first run takes a resource for a hidden variable. -/
theorem Shares.hide_take (hs : b.Shares shown vars m m') (hname : r.name ∈ b.hidden)
    (hslot : r.slot ∉ shown) : b.Shares shown vars (m.take r h) m' where
  related := by
    obtain ⟨s, hscopes⟩ := scopes_take (m := m) (r := r) (h := h)
    refine hs.related.rebased rfl take_eq rfl hs.take_left.1 hs.take_left.2 ?_ ?_
    · rw [hscopes]
      exact hs.related.arenas.hide hname s
    · rw [hscopes, ScopeArena.depth_insert]
      exact hs.depth
  buffers := hs.take_left.1
  textures := hs.take_left.2
  bound := by
    rw [inSlots_take hslot]
    exact hs.bound
  apart x hx hslot' := by
    rw [Machine.bound_take, List.mem_append, List.mem_singleton] at hx
    obtain hx | rfl := hx
    · exact hs.apart x hx hslot'
    · cases h with
      | uniform bytes => exact hs.buffers.fresh
      | storage bytes => exact hs.buffers.fresh
      | texture data size format => exact hs.textures.fresh
      | sampler => exact trivial
  apart' := hs.apart'

/-- The second run takes a resource for a hidden variable. -/
theorem Shares.hide_take' (hs : b.Shares shown vars m m') (hname : r.name ∈ b.hidden)
    (hslot : r.slot ∉ shown) : b.Shares shown vars m (m'.take r h) where
  related := by
    obtain ⟨s, hscopes⟩ := scopes_take (m := m') (r := r) (h := h)
    refine hs.related.rebased rfl rfl take_eq hs.take_right.1 hs.take_right.2 ?_ hs.depth
    rw [hscopes]
    exact hs.related.arenas.hide' hname s
  buffers := hs.take_right.1
  textures := hs.take_right.2
  bound := by
    rw [inSlots_take hslot]
    exact hs.bound
  apart := hs.apart
  apart' x hx hslot' := by
    rw [Machine.bound_take, List.mem_append, List.mem_singleton] at hx
    obtain hx | rfl := hx
    · exact hs.apart' x hx hslot'
    · cases h with
      | uniform bytes => exact hs.buffers.fresh'
      | storage bytes => exact hs.buffers.fresh'
      | texture data size format => exact hs.textures.fresh'
      | sampler => exact trivial

/-- Names are bound in the roots, and no resource is touched. -/
theorem Shares.rescoped (hs : b.Shares shown vars m m') {a a' : ScopeArena Slot}
    (ha : b.Arenas a a') (hd : 0 < a.depth) :
    b.Shares shown vars { m with scopes := a } { m' with scopes := a' } :=
  ⟨hs.related.rebased rfl rfl rfl hs.buffers hs.textures ha hd, hs.buffers, hs.textures, hs.bound,
    hs.apart, hs.apart'⟩

theorem pass_cases : m.pass r = m ∨ m.pass r =
    { m with scopes := m.scopes.insert ScopeArena.root r.name (.value .sampler) } := by
  unfold Machine.pass
  cases r.kind <;> first | exact Or.inl rfl | exact Or.inr rfl

theorem Shares.hide_pass (hs : b.Shares shown vars m m') (hname : r.name ∈ b.hidden) :
    b.Shares shown vars (m.pass r) m' := by
  obtain he | he := pass_cases (m := m) (r := r)
  · rwa [he]
  · rw [he]
    exact hs.rescoped (hs.related.arenas.hide hname _) (ScopeArena.depth_insert.symm ▸ hs.depth)

theorem Shares.hide_pass' (hs : b.Shares shown vars m m') (hname : r.name ∈ b.hidden) :
    b.Shares shown vars m (m'.pass r) := by
  obtain he | he := pass_cases (m := m') (r := r)
  · rwa [he]
  · rw [he]
    exact hs.rescoped (hs.related.arenas.hide' hname _) hs.depth

/-- Both runs go past a variable whose slot is empty. -/
theorem Shares.share_pass (hs : b.Shares shown vars m m') :
    b.Shares shown vars (m.pass r) (m'.pass r) := by
  unfold Machine.pass
  cases r.kind with
  | sampler =>
    refine hs.rescoped (hs.related.arenas.insert ⟨.sampler, rfl, ?_⟩)
      (ScopeArena.depth_insert.symm ▸ hs.depth)
    exact ⟨(Value.rename_sampler).symm, Value.rename_sampler⟩
  | _ => exact hs

theorem Extends.pairs (he : b.Extends c) {x x' : Bound} (hx : b.pairs x x') : c.pairs x x' := by
  cases x with
  | buffer slot i uniform =>
    obtain ⟨j, rfl, hj⟩ := hx
    exact ⟨j, rfl, he.buffer hj⟩
  | texture slot i =>
    obtain ⟨j, rfl, hj⟩ := hx
    exact ⟨j, rfl, he.texture hj⟩
  | sampler slot => exact hx

theorem inSlots_append_of_mem {bound : List Bound} {x : Bound} (hx : x.slot ∈ shown) :
    inSlots shown (bound ++ [x]) = inSlots shown bound ++ [x] := by
  unfold inSlots
  rw [List.filter_append]
  simp [hx]

/-- One more pair of resources, under counterparts that extend the earlier ones. -/
theorem Shares.bound_append (hs : b.Shares shown vars m m') (he : b.Extends c) {x x' : Bound}
    (hx : x.slot ∈ shown) (hx' : x'.slot ∈ shown) (hpair : c.pairs x x') :
    List.Forall₂ c.pairs (inSlots shown (m.bound ++ [x])) (inSlots shown (m'.bound ++ [x'])) := by
  rw [inSlots_append_of_mem hx, inSlots_append_of_mem hx']
  exact List.rel_append (hs.bound.imp fun _ _ => he.pairs) (.cons hpair .nil)

theorem Shares.share_takeBuffer (hs : b.Shares shown vars m m') (hslot : r.slot ∈ shown)
    (hm : ∀ x ∈ m.bound, m.Holds x) (hm' : ∀ x ∈ m'.bound, m'.Holds x) (bytes : Array UInt8)
    (uniform : Bool) : ∃ c : Bridge, c.hidden = b.hidden ∧
      c.Shares shown vars (m.takeBuffer r bytes uniform) (m'.takeBuffer r bytes uniform) := by
  let c := b.withBuffer m.memory.buffers.size m'.memory.buffers.size hs.buffers.fresh'
  have he : b.Extends c := extends_withBuffer hs.buffers.fresh
  have new : c.buffer? m.memory.buffers.size = some m'.memory.buffers.size := matchLast_self
  have pushed : Matched c.buffer? (m.memory.buffers.push bytes) (m'.memory.buffers.push bytes) :=
    hs.buffers.push bytes
  refine ⟨c, rfl, ?_, pushed, hs.textures, ?_, fun x hx hout => ?_, fun x hx hout => ?_⟩
  · exact hs.related.rebased rfl rfl rfl pushed hs.textures
      ((he.arenas hs.related.arenas).insert ⟨_, rfl, new⟩) (ScopeArena.depth_insert.symm ▸ hs.depth)
  · exact hs.bound_append he hslot hslot ⟨_, rfl, new⟩
  · obtain hx | rfl := List.mem_append.1 hx |>.imp id List.mem_singleton.1
    · have apart := hs.apart x hx hout
      cases x with
      | buffer slot i u => exact Matched.apart_matchLast apart (hm _ hx)
      | texture slot i => exact apart
      | sampler slot => exact trivial
    · exact absurd hslot hout
  · obtain hx | rfl := List.mem_append.1 hx |>.imp id List.mem_singleton.1
    · have apart := hs.apart' x hx hout
      cases x with
      | buffer slot j u => exact Matched.apart'_matchLast apart (hm' _ hx)
      | texture slot i => exact apart
      | sampler slot => exact trivial
    · exact absurd hslot hout

theorem Shares.share_takeTexture (hs : b.Shares shown vars m m') (hslot : r.slot ∈ shown)
    (hm : ∀ x ∈ m.bound, m.Holds x) (hm' : ∀ x ∈ m'.bound, m'.Holds x) (t : Texture) :
    ∃ c : Bridge, c.hidden = b.hidden ∧
      c.Shares shown vars (m.takeTexture r t) (m'.takeTexture r t) := by
  let c := b.withTexture m.memory.textures.size m'.memory.textures.size hs.textures.fresh'
  have he : b.Extends c := extends_withTexture hs.textures.fresh
  have new : c.texture? m.memory.textures.size = some m'.memory.textures.size := matchLast_self
  have pushed : Matched c.texture? (m.memory.textures.push t) (m'.memory.textures.push t) :=
    hs.textures.push t
  have values : c.values (.texture m.memory.textures.size) (.texture m'.memory.textures.size) := by
    refine ⟨?_, congrArg Value.texture ((c.within_texture_iff).2 ⟨_, new⟩)⟩
    rw [Value.rename_texture]
    simp only [across, new, Option.getD_some]
  refine ⟨c, rfl, ?_, hs.buffers, pushed, ?_, fun x hx hout => ?_, fun x hx hout => ?_⟩
  · exact hs.related.rebased rfl rfl rfl hs.buffers pushed
      ((he.arenas hs.related.arenas).insert ⟨_, rfl, values⟩)
      (ScopeArena.depth_insert.symm ▸ hs.depth)
  · exact hs.bound_append he hslot hslot ⟨_, rfl, new⟩
  · obtain hx | rfl := List.mem_append.1 hx |>.imp id List.mem_singleton.1
    · have apart := hs.apart x hx hout
      cases x with
      | texture slot i => exact Matched.apart_matchLast apart (hm _ hx)
      | buffer slot i u => exact apart
      | sampler slot => exact trivial
    · exact absurd hslot hout
  · obtain hx | rfl := List.mem_append.1 hx |>.imp id List.mem_singleton.1
    · have apart := hs.apart' x hx hout
      cases x with
      | texture slot j => exact Matched.apart'_matchLast apart (hm' _ hx)
      | buffer slot i u => exact apart
      | sampler slot => exact trivial
    · exact absurd hslot hout

/-- Both runs take what a slot that is shown has in it. -/
theorem Shares.share_take (hs : b.Shares shown vars m m') (hslot : r.slot ∈ shown)
    (hm : ∀ x ∈ m.bound, m.Holds x) (hm' : ∀ x ∈ m'.bound, m'.Holds x) :
    ∃ c : Bridge, c.hidden = b.hidden ∧ c.Shares shown vars (m.take r h) (m'.take r h) := by
  cases h with
  | uniform bytes => exact hs.share_takeBuffer hslot hm hm' bytes true
  | storage bytes => exact hs.share_takeBuffer hslot hm hm' bytes false
  | texture data size format => exact hs.share_takeTexture hslot hm hm' _
  | sampler =>
    refine ⟨b, rfl, ?_, hs.buffers, hs.textures, hs.bound_append (.refl b) hslot hslot rfl, ?_, ?_⟩
    · refine hs.related.rebased rfl rfl rfl hs.buffers hs.textures (hs.related.arenas.insert
        ⟨.sampler, rfl, Value.rename_sampler.symm, Value.rename_sampler⟩) ?_
      exact ScopeArena.depth_insert.symm ▸ hs.depth
    · intro x hx hout
      obtain hx | rfl := List.mem_append.1 hx |>.imp id List.mem_singleton.1
      · exact hs.apart x hx hout
      · exact trivial
    · intro x hx hout
      obtain hx | rfl := List.mem_append.1 hx |>.imp id List.mem_singleton.1
      · exact hs.apart' x hx hout
      · exact trivial

/-! ## All variables -/

/-- Two runs that are binding resources, and what is left with their hosts. -/
structure Binds (b : Bridge) (shown : List BindSlot) (vars : List VarDecl) (start start' : BindGroups)
    (m m' : Machine) (g g' : BindGroups) : Prop where
  shares : b.Shares shown vars m m'
  keeps : m.Keeps start g
  keeps' : m'.Keeps start' g'
  rest : ∀ slot ∈ shown, g.find? slot = g'.find? slot

variable {start start' g g' : BindGroups}

/-- One variable is bound in both runs; where its slot is not shown, its name is hidden. -/
theorem Binds.bindResource (hb : b.Binds shown vars start start' m m' g g')
    (hnew : ∀ x ∈ m.bound, x.slot ≠ r.slot) (hnew' : ∀ x ∈ m'.bound, x.slot ≠ r.slot)
    (hacc : ∀ h, start.find? r.slot = some h → r.kind.accepts h = true)
    (hacc' : ∀ h, start'.find? r.slot = some h → r.kind.accepts h = true)
    (hname : r.slot ∉ shown → r.name ∈ b.hidden) : ∃ c : Bridge, c.hidden = b.hidden ∧
      c.Binds shown vars start start' (m.bindResource r g).1 (m'.bindResource r g').1
        (m.bindResource r g).2 (m'.bindResource r g').2 := by
  have keeps := (hb.keeps.bindResource hnew hacc).1
  have keeps' := (hb.keeps'.bindResource hnew' hacc').1
  have accepted : ∀ h, g.find? r.slot = some h → r.kind.accepts h = true :=
    fun h hh => hacc h (hb.keeps.rest r.slot hnew ▸ hh)
  have accepted' : ∀ h, g'.find? r.slot = some h → r.kind.accepts h = true :=
    fun h hh => hacc' h (hb.keeps'.rest r.slot hnew' ▸ hh)
  by_cases hslot : r.slot ∈ shown
  · have same := hb.rest r.slot hslot
    cases hh : g.find? r.slot with
    | none =>
      have hh' := hh
      rw [same] at hh'
      rw [Machine.bindResource_of_none hh] at keeps ⊢
      rw [Machine.bindResource_of_none hh'] at keeps' ⊢
      exact ⟨b, rfl, hb.shares.share_pass, keeps, keeps', hb.rest⟩
    | some h =>
      have hh' := hh
      rw [same] at hh'
      obtain ⟨c, hc, hshares⟩ := hb.shares.share_take (h := h) hslot hb.keeps.inMemory
        hb.keeps'.inMemory
      rw [Machine.bindResource_of_some hh (accepted h hh)] at keeps ⊢
      rw [Machine.bindResource_of_some hh' (accepted h hh)] at keeps' ⊢
      refine ⟨c, hc, hshares, keeps, keeps', fun slot hin => ?_⟩
      by_cases he : slot = r.slot
      · rw [he, BindGroups.find?_erase_self, BindGroups.find?_erase_self]
      · rw [BindGroups.find?_erase_of_ne he, BindGroups.find?_erase_of_ne he]
        exact hb.rest slot hin
  · have hidden := hname hslot
    have other : ∀ slot ∈ shown, slot ≠ r.slot := fun slot hin e => hslot (e ▸ hin)
    -- the two runs need not agree on the slot, so each goes by itself
    have first : b.Shares shown vars (m.bindResource r g).1 m' ∧
        ∀ slot ∈ shown, (m.bindResource r g).2.find? slot = g.find? slot := by
      cases hh : g.find? r.slot with
      | none =>
        rw [Machine.bindResource_of_none hh]
        exact ⟨hb.shares.hide_pass hidden, fun _ _ => rfl⟩
      | some h =>
        rw [Machine.bindResource_of_some hh (accepted h hh)]
        exact ⟨hb.shares.hide_take hidden hslot,
          fun slot hin => BindGroups.find?_erase_of_ne (other slot hin)⟩
    have second : b.Shares shown vars (m.bindResource r g).1 (m'.bindResource r g').1 ∧
        ∀ slot ∈ shown, (m'.bindResource r g').2.find? slot = g'.find? slot := by
      cases hh : g'.find? r.slot with
      | none =>
        rw [Machine.bindResource_of_none hh]
        exact ⟨first.1.hide_pass' hidden, fun _ _ => rfl⟩
      | some h =>
        rw [Machine.bindResource_of_some hh (accepted' h hh)]
        exact ⟨first.1.hide_take' hidden hslot,
          fun slot hin => BindGroups.find?_erase_of_ne (other slot hin)⟩
    refine ⟨b, rfl, second.1, keeps, keeps', fun slot hin => ?_⟩
    rw [first.2 slot hin, second.2 slot hin]
    exact hb.rest slot hin

/-- The variables are bound in both runs, one after another. -/
theorem Binds.bindResources (resources : List Resource) :
    ∀ {b : Bridge} {m m' : Machine} {g g' : BindGroups},
      b.Binds shown vars start start' m m' g g' → (resources.map Resource.slot).Nodup →
      (∀ r ∈ resources, ∀ x ∈ m.bound, x.slot ≠ r.slot) →
      (∀ r ∈ resources, ∀ x ∈ m'.bound, x.slot ≠ r.slot) →
      (∀ r ∈ resources, ∀ h, start.find? r.slot = some h → r.kind.accepts h = true) →
      (∀ r ∈ resources, ∀ h, start'.find? r.slot = some h → r.kind.accepts h = true) →
      (∀ r ∈ resources, r.slot ∉ shown → r.name ∈ b.hidden) →
      ∃ c : Bridge, c.hidden = b.hidden ∧
        c.Binds shown vars start start' (m.bindResources resources g).1
          (m'.bindResources resources g').1 (m.bindResources resources g).2
          (m'.bindResources resources g').2 := by
  induction resources with
  | nil => exact fun {b} _ _ _ _ hb _ _ _ _ _ _ => ⟨b, rfl, hb⟩
  | cons r resources ih =>
    intro b m m' g g' hb hnodup hnew hnew' hacc hacc' hname
    rw [List.map_cons, List.nodup_cons] at hnodup
    have hr : r ∈ r :: resources := List.mem_cons_self
    obtain ⟨c, hc, hstep⟩ := hb.bindResource (hnew r hr) (hnew' r hr) (hacc r hr) (hacc' r hr)
      (hname r hr)
    -- the slots of the variables to come are still as they were
    have others : ∀ r' ∈ resources, r.slot ≠ r'.slot := fun r' hr' e =>
      hnodup.1 (List.mem_map.2 ⟨r', hr', e.symm⟩)
    have noted := (hb.keeps.bindResource (hnew r hr) (hacc r hr)).2
    have noted' := (hb.keeps'.bindResource (hnew' r hr) (hacc' r hr)).2
    obtain ⟨d, hd, hrest⟩ := ih hstep hnodup.2
      (fun r' hr' x hx => (noted x hx).elim (hnew r' (List.mem_cons_of_mem _ hr') x)
        fun e => e ▸ others r' hr')
      (fun r' hr' x hx => (noted' x hx).elim (hnew' r' (List.mem_cons_of_mem _ hr') x)
        fun e => e ▸ others r' hr')
      (fun r' hr' => hacc r' (List.mem_cons_of_mem _ hr'))
      (fun r' hr' => hacc' r' (List.mem_cons_of_mem _ hr'))
      (fun r' hr' hs => hc ▸ hname r' (List.mem_cons_of_mem _ hr') hs)
    exact ⟨d, hd.trans hc, hrest⟩

/-! ## After the run -/

theorem slot_pairs {x x' : Bound} (hx : b.pairs x x') : x'.slot = x.slot := by
  cases x with
  | buffer slot i uniform =>
    obtain ⟨j, rfl, -⟩ := hx
    rfl
  | texture slot i =>
    obtain ⟨j, rfl, -⟩ := hx
    rfl
  | sampler slot =>
    obtain rfl := hx
    rfl

/-- Resources that stand for each other are handed back alike. -/
theorem Related.released_pairs {w : Situation} (hn : b.Related w n n') {x x' : Bound}
    (hx : b.pairs x x') : n'.released x' = n.released x := by
  cases x with
  | buffer slot i uniform =>
    obtain ⟨j, rfl, hj⟩ := hx
    unfold Machine.released
    dsimp only
    rw [hn.memory.buffers.same i j hj]
  | texture slot i =>
    obtain ⟨j, rfl, hj⟩ := hx
    unfold Machine.released
    dsimp only
    rw [hn.memory.textures.same i j hj]
  | sampler slot =>
    obtain rfl := hx
    rfl

theorem foldl_handed_inSlots {slot : BindSlot} (hslot : slot ∈ shown) (bound : List Bound)
    (found : Option HostResource) : bound.foldl (n.handed slot) found =
      (inSlots shown bound).foldl (n.handed slot) found := by
  induction bound generalizing found with
  | nil => rfl
  | cons x bound ih =>
    unfold inSlots at ih ⊢
    rw [List.foldl_cons, List.filter_cons]
    split
    · exact ih _
    · rename_i hx
      have hne : x.slot ≠ slot := fun e => hx (List.contains_iff_mem.2 (e ▸ hslot))
      rw [show n.handed slot found x = found from if_neg hne]
      exact ih found

theorem Related.foldl_handed {w : Situation} (hn : b.Related w n n') (slot : BindSlot)
    {bound bound' : List Bound} (hb : List.Forall₂ b.pairs bound bound')
    (found : Option HostResource) :
    bound'.foldl (n'.handed slot) found = bound.foldl (n.handed slot) found := by
  induction hb generalizing found with
  | nil => rfl
  | @cons x x' bound bound' hx _ ih =>
    rw [List.foldl_cons, List.foldl_cons]
    have same : n'.handed slot found x' = n.handed slot found x := by
      unfold Machine.handed
      rw [slot_pairs hx, hn.released_pairs hx]
    rw [same]
    exact ih _

/-- A slot that is shown gets the same back in both runs. -/
theorem Binds.find?_handBack_shown (hb : b.Binds shown vars start start' m m' g g')
    (hn : b.Related (.ofModule vars m.memory m'.memory m.bound m'.bound) n n') {slot : BindSlot}
    (hslot : slot ∈ shown) : (n'.handBack g').find? slot = (n.handBack g).find? slot := by
  have bound : n.bound = m.bound := hn.bound
  have bound' : n'.bound = m'.bound := hn.bound'
  rw [Machine.find?_handBack, Machine.find?_handBack, bound, bound', hb.rest slot hslot,
    foldl_handed_inSlots hslot m.bound, foldl_handed_inSlots hslot m'.bound]
  exact hn.foldl_handed slot hb.shares.bound _

/-- Any other slot gets back what was in it. -/
theorem Binds.find?_handBack_other (hb : b.Binds shown vars start start' m m' g g')
    (hn : b.Related (.ofModule vars m.memory m'.memory m.bound m'.bound) n n') {slot : BindSlot}
    (hslot : slot ∉ shown) : (n.handBack g).find? slot = start.find? slot ∧
      (n'.handBack g').find? slot = start'.find? slot := by
  constructor
  · refine Machine.find?_handBack_of_held hb.keeps hn.bound fun x hx hs => ?_
    have apart := hb.shares.apart x hx (hs ▸ hslot)
    cases x with
    | buffer slot i uniform =>
      unfold Machine.released
      dsimp only
      rw [hn.memory.buffers.kept i apart]
      rfl
    | texture slot i =>
      unfold Machine.released
      dsimp only
      rw [hn.memory.textures.kept i apart]
      rfl
    | sampler slot => rfl
  · refine Machine.find?_handBack_of_held hb.keeps' hn.bound' fun x hx hs => ?_
    have apart := hb.shares.apart' x hx (hs ▸ hslot)
    cases x with
    | buffer slot i uniform =>
      unfold Machine.released
      dsimp only
      rw [hn.memory.buffers.kept' i apart]
      rfl
    | texture slot i =>
      unfold Machine.released
      dsimp only
      rw [hn.memory.textures.kept' i apart]
      rfl
    | sampler slot => rfl

end Bridge

end Wgsl
