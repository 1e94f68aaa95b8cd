import Wgsl.Memory.Path

/-! # What stays of memory

However a shader writes, it adds and removes no buffer and no texture, no buffer changes its length
and no texture its size or format.

* `Memory.outline`: the lengths of the buffers, and the sizes and formats of the textures.
* `Change.Fixes`: changes that leave something of the state as it is.
* `Memory.fixes_writePath`, `Memory.fixes_onTexture`: every write leaves the outline as it is.
-/

namespace Wgsl
set_option autoImplicit false

/-! ## Changes that leave something as it is -/

/-- The change leaves that of the state as it is, also where it stops. -/
def Change.Fixes {σ α β : Type} (f : σ → β) (c : Change σ α) : Prop := ∀ s, f (c.apply s).2 = f s

namespace Change

variable {σ τ α β γ : Type} {f : σ → β}

theorem fixes_pure (a : α) : Fixes f (pure a) := fun _ => rfl

theorem fixes_throw (e : RunError) : Fixes f (throw e : Change σ α) := fun _ => rfl

theorem Fixes.bind {c : Change σ α} {d : α → Change σ γ} (hc : Fixes f c) (hd : ∀ a, Fixes f (d a)) :
    Fixes f (c >>= d) := by
  intro s
  have first := hc s
  simp only [Change.apply, ExceptT.run_bind, StateT.run_bind] at first ⊢
  rcases hr : (ExceptT.run c).run s with ⟨outcome, t⟩
  rw [hr] at first
  cases outcome with
  | ok a => exact (hd a t).trans first
  | error e => exact first

theorem Fixes.reading {d : σ → Change σ α} (h : ∀ s, Fixes f (d s)) : Fixes f (get >>= d) :=
  fun s => h s s

theorem fixes_lift_bind_of {x : Run γ} {d : γ → Change σ α} (h : ∀ a, x = .ok a → Fixes f (d a)) :
    Fixes f (liftM x >>= d) := by
  cases x with
  | ok a => exact h a rfl
  | error e => exact fixes_throw e

theorem fixes_lift_bind {x : Run γ} {d : γ → Change σ α} (h : ∀ a, Fixes f (d a)) :
    Fixes f (liftM x >>= d) := fixes_lift_bind_of fun a _ => h a

theorem fixes_modify {g : σ → σ} (h : ∀ s, f (g s) = f s) : Fixes f (modify g : Change σ PUnit) := h

theorem fixes_forM {d : α → Change σ PUnit} (h : ∀ a, Fixes f (d a)) (l : List α) :
    Fixes f (l.forM d) := by
  induction l with
  | nil => exact fixes_pure _
  | cons a l ih => exact (h a).bind fun _ => ih

end Change

open Change

/-! ## Textures -/

/-- The number of bytes of a texture, its size and its format. -/
def Texture.outline (t : Texture) : Nat × Extent × TexelFormat := (t.data.size, t.size, t.format)

theorem Texture.fixes_storeChannels (c : Channel) (start : Nat) (items : List Value) :
    Fixes Array.size (storeChannels c start items) := by
  induction items generalizing start with
  | nil => exact fixes_pure _
  | cons v items ih =>
    rw [storeChannels]
    refine fixes_lift_bind fun bytes => ?_
    exact (fixes_modify fun _ => Bytes.size_write ..).bind fun _ => ih _

theorem Texture.fixes_store (coords : List Int) (v : Value) :
    Fixes Texture.outline (Texture.store coords v) := by
  intro t
  unfold Texture.store
  cases hstart : t.texelStart coords with
  | error e =>
    change (((liftM (t.texelStart coords) >>= _ : Change Texture Unit)).apply t).2.outline = _
    rw [hstart]
    rfl
  | ok start =>
    change (((liftM (t.texelStart coords) >>= _ : Change Texture Unit)).apply t).2.outline = _
    rw [hstart]
    exact congrArg (·, t.size, t.format) (fixes_storeChannels _ _ _ t.data)

/-! ## Buffers -/

namespace Memory

/-- The length of every buffer, and what stays of every texture. -/
def outline (m : Memory) : Array Nat × Array (Nat × Extent × TexelFormat) :=
  (m.buffers.map Array.size, m.textures.map Texture.outline)

/-- Memory with nothing bound is the only one of its outline. -/
theorem eq_empty_of_outline {m : Memory} (h : m.outline = empty.outline) : m = empty := by
  obtain ⟨buffers, textures⟩ := m
  obtain ⟨hb, ht⟩ := Prod.mk.inj h
  have no_buffers : buffers = #[] := Array.map_eq_empty_iff.1 (hb.trans Array.map_empty)
  have no_textures : textures = #[] := Array.map_eq_empty_iff.1 (ht.trans Array.map_empty)
  rw [no_buffers, no_textures]
  rfl

theorem outline_write (buffer : BufferId) (start : Nat) (bytes : List UInt8) (m : Memory) :
    (write buffer start bytes m).outline = m.outline := by
  refine congrArg (·, m.textures.map Texture.outline) (Array.ext (by simp [write]) fun i hi hi' => ?_)
  simp only [write, Array.getElem_map, Array.getElem_modify]
  split
  · exact Bytes.size_write ..
  · rfl

theorem fixes_storeScalar (kind : ScalarKind) (buffer : BufferId) (start : Nat) (value : Value) :
    Fixes outline (storeScalar kind buffer start value) :=
  Fixes.reading fun _ => fixes_lift_bind fun _ => fixes_lift_bind fun bytes =>
    fixes_modify (outline_write buffer start bytes)

mutual

theorem fixes_storeAt (buffer : BufferId) : ∀ (t : TypeInfo) (offset : Nat) (value : Value),
    Fixes outline (storeAt buffer t offset value)
  | .mk name attributes size align shape, offset, value => by
    rw [storeAt]
    exact fixes_storeShape shape _ value

theorem fixes_storeShape : ∀ (shape : TypeShape) (v : BufferView) (value : Value),
    Fixes outline (storeShape v shape value)
  | .scalar kind, v, value => by
    rw [storeShape]
    exact fixes_storeScalar _ _ _ _
  | .handle, v, value => by
    rw [storeShape]
    exact fixes_throw _
  | .array element _ _, v, value => by
    cases value with
    | array items =>
      rw [storeShape]
      refine Fixes.reading fun m => fixes_forM (fun item => ?_) _
      exact fixes_lift_bind fun part => fixes_storeAt v.buffer element _ _
    | _ =>
      rw [storeShape]
      · exact fixes_throw _
      · nofun
  | .struct _ members _ _, v, value => by
    cases value with
    | struct name fields =>
      rw [storeShape]
      exact fixes_storeMembers members v fields
    | _ =>
      rw [storeShape]
      · exact fixes_throw _
      · nofun
  | .template base param _ _, v, value => by
    rw [storeShape]
    split
    · refine fixes_lift_bind fun items => fixes_forM (fun item => ?_) _
      exact fixes_lift_bind fun part => fixes_storeComponents param _ part _
    · split
      · exact fixes_storeComponents param _ v value
      · split
        · exact fixes_storeScalar _ _ _ _
        · exact fixes_throw _

theorem fixes_storeComponents : ∀ (param : Option TypeInfo) (length : Nat) (v : BufferView)
    (value : Value), Fixes outline (storeComponents length v param value)
  | none, length, v, value => by
    rw [storeComponents]
    refine fixes_lift_bind fun items => fixes_forM (fun item => ?_) _
    exact fixes_lift_bind fun part => fixes_throw _
  | some element, length, v, value => by
    rw [storeComponents]
    refine fixes_lift_bind fun items => fixes_forM (fun item => ?_) _
    exact fixes_lift_bind fun part => fixes_storeAt v.buffer element _ _

theorem fixes_storeMembers : ∀ (members : List MemberInfo) (v : BufferView)
    (fields : List (String × Value)), Fixes outline (storeMembers v fields members)
  | [], v, fields => by
    rw [storeMembers]
    exact fixes_pure _
  | .mk name type offset _ _ :: rest, v, fields => by
    rw [storeMembers]
    split
    · refine fixes_lift_bind fun part => ?_
      exact (fixes_storeAt v.buffer type _ _).bind fun _ => fixes_storeMembers rest v fields
    · exact fixes_storeMembers rest v fields

end

/-! ## Writes -/

theorem fixes_writePath (v : BufferView) (path : List Access) (new : Value) :
    Fixes outline (writePath v path new) := by
  refine Fixes.reading fun m => fixes_lift_bind fun target => ?_
  split
  · exact fixes_storeAt _ _ _ _
  · refine fixes_lift_bind fun old => ?_
    split
    · exact fixes_storeAt _ _ _ _
    · exact fixes_throw _
  · exact fixes_throw _

theorem fixes_onTexture {c : Change Texture Unit} (id : TextureId) (hc : Fixes Texture.outline c) :
    Fixes outline (onTexture id c) := by
  intro m
  change ((liftM (m.texture id) >>= fun t => Change.onPart t
    (fun t => { m with textures := m.textures.setIfInBounds id t }) c : Change Memory Unit).apply
      m).2.outline = _
  unfold texture
  cases ht : m.textures[id]? with
  | none => rfl
  | some t =>
    obtain ⟨hid, rfl⟩ := Array.getElem?_eq_some_iff.1 ht
    refine congrArg (m.buffers.map Array.size, ·) ?_
    change (m.textures.setIfInBounds id (c.apply m.textures[id]).2).map Texture.outline = _
    rw [Array.map_setIfInBounds, hc]
    refine Array.ext (Array.size_setIfInBounds ..) fun i _ hi => ?_
    rw [Array.getElem_setIfInBounds hi, Array.getElem_map]
    split
    · rename_i he
      subst he
      rfl
    · rfl

end Memory

end Wgsl
