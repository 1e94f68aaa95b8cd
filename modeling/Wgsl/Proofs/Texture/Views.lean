import Wgsl.Proofs.Machine.Returned
import Wgsl.Proofs.Reflect.Variables
import Wgsl.Proofs.Stepper.Frames
import Wgsl.Proofs.Texture.Texels

/-! # Textures seen through the types of variables

What a call makes of its arguments depends on the type of the variable that a texture is bound to, and
there on how the type is called. The texture of an array type is taken for one with layers only if the
type is written without parameters.

* `Texture.load_eq`, `Texture.store_eq`: a texel is found by the offset of its bytes.
* `TypeExpr.IsArrayTexture`: the types of array textures.
* `Machine.bindResources_texture`: a variable is bound to the texture in its slot.
* `Attempt.arrayTexture_texels`: the texel that a call with a layer is about.
-/

namespace Wgsl
set_option autoImplicit false

/-! ## Texels by offset -/

namespace Texture

variable {t : Texture} {coords : List Int}

/-- The offset of a texel all of whose bytes are there. -/
def fits (t : Texture) (start : Nat) : Run Nat :=
  if start + t.format.bytesPerTexel ≤ t.data.size then return start
  else throw (RunCause.indexOutOfBounds start t.data.size).unplaced

/-- The texel whose bytes begin at an offset. -/
def texelAt (t : Texture) (start : Nat) : Run Value := do
  let start ← t.fits start
  let texel := t.format.swapped (t.channels start t.format.channelCount)
  return .vector (padded t.format.channel texel)

/-- Writes the texel whose bytes begin at an offset. -/
def storeAt (start : Nat) (v : Value) : Change Texture Unit := do
  let t ← get
  let start ← t.fits start
  let parts := (t.format.swapped v.components).take t.format.channelCount
  Change.onPart t.data (fun data => { t with data }) (storeChannels t.format.channel start parts)

theorem texelStart_fits (h : Inside coords t.size.toList) :
    t.texelStart coords = t.fits (place coords t.size.toList * t.format.bytesPerTexel) := by
  rw [texelStart, texelOffset, texelIndex_eq h]
  rfl

theorem load_eq (h : Inside coords t.size.toList) :
    t.load coords = t.texelAt (place coords t.size.toList * t.format.bytesPerTexel) := by
  rw [load, texelStart_fits h]
  rfl

theorem store_eq (h : Inside coords t.size.toList) (v : Value) : (store coords v).apply t =
    (storeAt (place coords t.size.toList * t.format.bytesPerTexel) v).apply t := by
  change (liftM (t.texelStart coords) >>= _ : Change Texture Unit).apply t =
    (liftM (t.fits _) >>= _ : Change Texture Unit).apply t
  rw [texelStart_fits h]

end Texture

/-! ## Types of array textures -/

namespace TypeExpr

/-- The types of array textures. -/
inductive IsArrayTexture : TypeExpr → Prop
  | sampled (id : NodeId) (attributes : List Attribute) (texel : TypeExpr) :
    IsArrayTexture (.template id attributes "texture_2d_array" (some texel) none none)
  | storage (id : NodeId) (attributes : List Attribute) (format : String) (access : Option String) :
    IsArrayTexture (.template id attributes "texture_storage_2d_array" none access (some format))
  | depth (id : NodeId) (attributes : List Attribute) :
    IsArrayTexture (.template id attributes "texture_depth_2d_array" none none none)

/-- Whether parameters are written. -/
def hasParams : TypeExpr → Bool
  | .named .. => false
  | .template _ _ _ param access space => param.isSome || access.isSome || space.isSome
  | .array _ _ element _ _ => element.isSome

variable {t : TypeExpr}

theorem IsArrayTexture.isGenerator (h : t.IsArrayTexture) : t.isGenerator = true := by
  cases h <;> rfl

/-- Parameters stand in brackets behind the name. -/
theorem IsArrayTexture.text (h : t.IsArrayTexture) :
    (t.hasParams = false ∧ t.text = "texture_depth_2d_array") ∨
      (t.hasParams = true ∧ ∃ params, t.text = "texture_2d_array" ++ "<" ++ params ++ ">" ∨
        t.text = "texture_storage_2d_array" ++ "<" ++ params ++ ">") := by
  cases h with
  | sampled id attributes texel => exact .inr ⟨rfl, _, .inl rfl⟩
  | storage id attributes format access =>
    exact .inr ⟨by simp [hasParams], _, .inr rfl⟩
  | depth id attributes => exact .inl ⟨rfl, rfl⟩

/-- The texture has layers if the type is written without parameters. -/
theorem IsArrayTexture.arrayed_withView (h : t.IsArrayTexture) (bound : Texture) :
    (bound.withView t.text).arrayed = !t.hasParams := by
  have bracketed : ∀ text : String, "_array".toList.isSuffixOf (text ++ ">").toList = false := by
    intro text
    rw [List.isSuffixOf, String.toList_append, List.reverse_append]
    rfl
  obtain ⟨hparams, htext⟩ | ⟨hparams, params, htext | htext⟩ := h.text
  all_goals rw [hparams, htext]
  · rfl
  · exact bracketed _
  · exact bracketed _

/-- A variable of such a type is for a texture. -/
theorem IsArrayTexture.kind (h : t.IsArrayTexture) {info : TypeInfo} (hinfo : info.name = t.text) :
    ∃ kind, Reflection.resourceKind? none info = some kind ∧
      (kind = .texture ∨ kind = .storageTexture) := by
  unfold Reflection.resourceKind? TypeInfo.isTexture
  obtain ⟨-, htext⟩ | ⟨-, params, htext | htext⟩ := h.text
  all_goals rw [hinfo, htext]
  · exact ⟨.texture, rfl, .inl rfl⟩
  · rw [String.toList_append, String.toList_append, String.toList_append]
    exact ⟨.texture, rfl, .inl rfl⟩
  · rw [String.toList_append, String.toList_append, String.toList_append]
    exact ⟨.storageTexture, rfl, .inr rfl⟩

end TypeExpr

/-! ## Binding -/

namespace Machine

variable {m : Machine} {g : BindGroups} {r u : Resource} {x : String} {slot : BindSlot}

/-- A variable takes what is in its slot, or it is a sampler, or nothing changes. -/
theorem bindResource_cases (m : Machine) (r : Resource) (g : BindGroups) :
    (∃ h, m.bindResource r g = (m.take r h, g.erase r.slot)) ∨
      m.bindResource r g = (m.bind ScopeArena.root r.name (.value .sampler), g) ∨
      m.bindResource r g = (m, g) := by
  unfold bindResource
  dsimp only
  cases r.kind <;> rcases g.find? ⟨r.group, r.binding⟩ with _ | ⟨_ | _ | _ | _⟩ <;>
    first
    | exact .inr (.inr rfl)
    | exact .inr (.inl rfl)
    | exact .inl ⟨.sampler, rfl⟩
    | exact .inl ⟨.uniform _, rfl⟩
    | exact .inl ⟨.storage _, rfl⟩
    | exact .inl ⟨.texture _ _ _, rfl⟩

/-- The name stands for a texture at module scope, and the host has nothing in the slot. -/
structure Exhibits (m : Machine) (g : BindGroups) (slot : BindSlot) (x : String) (t : Texture) : Prop where
  gone : g.find? slot = none
  shown : ∃ id, m.scopes.findIn? ScopeArena.root x = some (.value (.texture id)) ∧
    m.memory.textures[id]? = some t

theorem take_apart (h : HostResource) (hname : x ≠ r.name) :
    (m.take r h).scopes.findIn? ScopeArena.root x = m.scopes.findIn? ScopeArena.root x ∧
      ∀ (id : Nat) t, m.memory.textures[id]? = some t → (m.take r h).memory.textures[id]? = some t := by
  have pushed : ∀ (t' : Texture) (id : Nat) t, m.memory.textures[id]? = some t →
      (m.memory.textures.push t')[id]? = some t := by
    intro t' id t ht
    obtain ⟨hid, -⟩ := Array.getElem?_eq_some_iff.1 ht
    rwa [Array.getElem?_push, if_neg (Nat.ne_of_lt hid)]
  cases h with
  | texture data size format =>
    exact ⟨ScopeArena.findIn?_insert_of_ne (.inr hname), pushed _⟩
  | uniform => exact ⟨ScopeArena.findIn?_insert_of_ne (.inr hname), fun _ _ => id⟩
  | storage => exact ⟨ScopeArena.findIn?_insert_of_ne (.inr hname), fun _ _ => id⟩
  | sampler => exact ⟨ScopeArena.findIn?_insert_of_ne (.inr hname), fun _ _ => id⟩

/-- Another variable with a slot of its own takes nothing from the name. -/
theorem Exhibits.bindResource {t : Texture} (h : m.Exhibits g slot x t) (hname : u.name ≠ x) :
    (m.bindResource u g).1.Exhibits (m.bindResource u g).2 slot x t := by
  obtain ⟨gone, id, hscope, htexture⟩ := h
  have empty : (g.erase u.slot).find? slot = none := by
    by_cases hslot : slot = u.slot
    · rw [hslot, BindGroups.find?_erase_self]
    · rw [BindGroups.find?_erase_of_ne hslot, gone]
  obtain ⟨taken, e⟩ | e | e := m.bindResource_cases u g <;> rw [e]
  · obtain ⟨scopes, textures⟩ := take_apart (m := m) taken hname.symm
    exact ⟨empty, id, scopes.trans hscope, textures id t htexture⟩
  · refine ⟨gone, id, ?_, htexture⟩
    exact (ScopeArena.findIn?_insert_of_ne (.inr hname.symm)).trans hscope
  · exact ⟨gone, id, hscope, htexture⟩

variable {data : Array UInt8} {size : Extent} {format : TexelFormat}

theorem bindResource_texture (hkind : r.kind = .texture ∨ r.kind = .storageTexture)
    (hopen : 0 < m.scopes.depth) (hg : g.find? r.slot = some (.texture data size format)) :
    (m.bindResource r g).1.Exhibits (m.bindResource r g).2 r.slot r.name
      (Texture.withView { data, size, format } r.type.name) := by
  have accepted : r.kind.accepts (.texture data size format) = true := by
    obtain e | e := hkind <;> rw [e] <;> rfl
  rw [bindResource_of_some hg accepted]
  refine ⟨BindGroups.find?_erase_self, m.memory.textures.size, ?_, ?_⟩
  · exact ScopeArena.findIn?_insert_self hopen
  · change (m.memory.textures.push _)[m.memory.textures.size]? = _
    rw [Array.getElem?_push, if_pos rfl]

/-- Once the variable is bound, the others leave its name and its texture as they are. -/
theorem Exhibits.bindResources {t : Texture} (hkind : r.kind = .texture ∨ r.kind = .storageTexture)
    (h : m.Exhibits g r.slot r.name t) {resources : List Resource}
    (hown : ∀ u ∈ resources, u.name = r.name → u = r) :
    (m.bindResources resources g).1.Exhibits (m.bindResources resources g).2 r.slot r.name t := by
  induction resources generalizing m g with
  | nil => exact h
  | cons u resources ih =>
    have rest := fun v hv => hown v (List.mem_cons_of_mem u hv)
    rw [bindResources_cons]
    by_cases hname : u.name = r.name
    · -- the same variable again: its slot is empty
      obtain rfl := hown u List.mem_cons_self hname
      rw [bindResource_of_none h.gone]
      have passed : m.pass u = m := by
        unfold pass
        obtain e | e := hkind <;> rw [e]
      rw [passed]
      exact ih h rest
    · exact ih (h.bindResource hname) rest

/-- A variable for a texture is bound to the texture in its slot. -/
theorem bindResources_texture (hkind : r.kind = .texture ∨ r.kind = .storageTexture)
    {resources : List Resource} (hr : r ∈ resources)
    (hown : ∀ u ∈ resources, u.name = r.name ∨ u.slot = r.slot → u = r)
    (hopen : 0 < m.scopes.depth) (hg : g.find? r.slot = some (.texture data size format)) :
    (m.bindResources resources g).1.Exhibits (m.bindResources resources g).2 r.slot r.name
      (Texture.withView { data, size, format } r.type.name) := by
  induction resources generalizing m g with
  | nil => cases hr
  | cons u resources ih =>
    have rest := fun v hv => hown v (List.mem_cons_of_mem u hv)
    rw [bindResources_cons]
    by_cases hu : u = r
    · subst hu
      refine (bindResource_texture hkind hopen hg).bindResources hkind fun v hv hname => ?_
      exact rest v hv (.inl hname)
    · have other : r.slot ≠ u.slot := fun e => hu (hown u List.mem_cons_self (.inr e.symm))
      refine ih ((List.mem_cons.1 hr).resolve_left fun e => hu e.symm) rest ?_ ?_
      · rw [(keepsStack_bindResource u m g).depth]
        exact hopen
      · obtain ⟨taken, e⟩ | e | e := m.bindResource_cases u g <;> rw [e]
        · rw [BindGroups.find?_erase_of_ne other, hg]
        · exact hg
        · exact hg

end Machine

/-! ## Calls -/

namespace Eval

variable {n : Machine} {id : TextureId} {t : Texture} {cs layer texel : Value} {more : List Value}
  {coords : List Int}

/-- The calls that load and store with a layer are about the texel whose bytes begin at an offset. -/
structure Addresses (n : Machine) (id : TextureId) (t : Texture) (cs layer : Value) (start : Nat) :
    Prop where
  load : ∀ more : List Value, more.length ≤ 1 →
    (callBuiltin "textureLoad" (.texture id :: cs :: layer :: more)).run n = .ok (t.texelAt start, n)
  store : ∀ texel, (callBuiltin "textureStore" [.texture id, cs, layer, texel]).run n =
    (do
      ofChange (Machine.onMemory (Memory.onTexture id (Texture.storeAt start texel)))
      return Value.void : Eval Value).run n

theorem callBuiltin_textureLoad (hmore : more.length ≤ 1) (v : Value) :
    callBuiltin "textureLoad" (v :: cs :: layer :: more) = textureLoad v (cs :: layer :: more) := by
  match more, hmore with
  | [], _ => rfl
  | [_], _ => rfl

theorem run_textureLoad (ht : n.memory.texture id = .ok t)
    (hcoords : coordinates t (cs :: more) = .ok coords) :
    (textureLoad (.texture id) (cs :: more)).run n = .ok (t.load coords, n) := by
  change ((liftM (n.memory.texture id) : Eval Texture) >>= fun t => do
    liftM (t.load (← liftM (coordinates t (cs :: more))))).run n = _
  rw [ht]
  change ((liftM (coordinates t (cs :: more)) : Eval (List Int)) >>= fun c => liftM (t.load c)).run n = _
  rw [hcoords]
  change (liftM (t.load coords) : Eval Value).run n = _
  cases t.load coords <;> rfl

theorem run_textureStore (ht : n.memory.texture id = .ok t)
    (hcoords : coordinates t [cs, layer] = .ok coords) :
    (textureStore (.texture id) [cs, layer, texel]).run n = (do
      ofChange (Machine.onMemory (Memory.onTexture id (Texture.store coords texel)))
      return Value.void : Eval Value).run n := by
  change ((liftM (n.memory.texture id) : Eval Texture) >>= fun t => do
    let coords ← liftM (coordinates t [cs, layer])
    ofChange (Machine.onMemory (Memory.onTexture id (Texture.store coords texel)))
    return Value.void).run n = _
  rw [ht]
  change ((liftM (coordinates t [cs, layer]) : Eval (List Int)) >>= fun coords => do
    ofChange (Machine.onMemory (Memory.onTexture id (Texture.store coords texel)))
    return Value.void).run n = _
  rw [hcoords]
  rfl

/-- What is done to a texture depends on what it does to the texture that is there. -/
theorem run_onTexture_congr {c c' : Change Texture Unit} (ht : n.memory.texture id = .ok t)
    (hc : c.apply t = c'.apply t) :
    (ofChange (Machine.onMemory (Memory.onTexture id c))).run n =
      (ofChange (Machine.onMemory (Memory.onTexture id c'))).run n := by
  have applied : ∀ c : Change Texture Unit, (Memory.onTexture id c).apply n.memory =
      ((c.apply t).1, { n.memory with
        textures := n.memory.textures.setIfInBounds id (c.apply t).2 }) := by
    intro c
    change (liftM (n.memory.texture id) >>= fun t => Change.onPart t
      (fun t => { n.memory with textures := n.memory.textures.setIfInBounds id t }) c :
        Change Memory Unit).apply n.memory = _
    rw [ht]
    rfl
  change Except.ok (((Memory.onTexture id c).apply n.memory).1,
      { n with memory := ((Memory.onTexture id c).apply n.memory).2 }) =
    Except.ok (((Memory.onTexture id c').apply n.memory).1,
      { n with memory := ((Memory.onTexture id c').apply n.memory).2 })
  rw [applied, applied, hc]

section

variable {x y z : Nat} (hcs : cs.components.mapM Value.integer = .ok [(x : Int), y])
  (hlayer : layer.integer = .ok (z : Int))

include hcs hlayer

theorem coordinates_of_view (more : List Value) : coordinates t (cs :: layer :: more) =
    .ok (if t.arrayed then [(x : Int), y, z] else [(x : Int), y]) := by
  unfold coordinates
  dsimp only
  rw [hcs]
  cases t.arrayed with
  | true =>
    change (layer.integer >>= fun z => Except.ok ([(x : Int), y] ++ [z])) = _
    rw [hlayer]
    rfl
  | false => rfl

/-- The layer counts where the texture has layers. -/
theorem addresses_of_view (ht : n.memory.texture id = .ok t) (hx : x < t.size.x) (hy : y < t.size.y)
    (hz : z < t.size.z) : Addresses n id t cs layer
      ((((if t.arrayed then z else 0) * t.size.y + y) * t.size.x + x) * t.format.bytesPerTexel) := by
  have coords := coordinates_of_view (t := t) hcs hlayer
  have inside : Texture.Inside (if t.arrayed then [(x : Int), y, z] else [(x : Int), y])
      t.size.toList := by
    split
    · exact ⟨by omega, by omega, by omega, by omega, by omega, by omega, trivial⟩
    · exact ⟨by omega, by omega, by omega, by omega, trivial⟩
  have hplace : Texture.place (if t.arrayed then [(x : Int), y, z] else [(x : Int), y])
      t.size.toList = ((if t.arrayed then z else 0) * t.size.y + y) * t.size.x + x := by
    have width : max t.size.x 1 = t.size.x := Nat.max_eq_left (by omega)
    have height : max t.size.y 1 = t.size.y := Nat.max_eq_left (by omega)
    split <;> simp only [Extent.toList, Texture.place, Int.toNat_natCast, width, height] <;> ring
  rw [← hplace]
  refine ⟨fun more hmore => ?_, fun texel => ?_⟩
  · rw [callBuiltin_textureLoad hmore, run_textureLoad ht (coords more), Texture.load_eq inside]
  · change (textureStore (.texture id) [cs, layer, texel]).run n = _
    rw [run_textureStore ht (coords [])]
    exact congrArg (fun r => r >>= fun q : Run Unit × Machine =>
      ExceptT.bindCont (fun _ => (pure Value.void : Eval Value)) q.1 q.2)
      (run_onTexture_congr ht (Texture.store_eq inside texel))

end

end Eval

/-! ## Dispatches -/

/-- Binding resources is the last thing before a dispatch is ready. -/
theorem Attempt.bound_of_prepare {s : Shader} {entry : String} {workgroups : Extent}
    {g rest : BindGroups} {config : Config} {m m' : Machine} {plan : DispatchPlan}
    (h : (prepare s entry workgroups g config).run m = .ok (.ok (plan, rest), m')) :
    ∃ m₁ : Machine, 0 < m₁.scopes.depth ∧ m₁.bindResources s.reflection.resources g = (m', rest) := by
  have opened : m'.scopes.depth = 1 := by
    obtain ⟨-, -, e, he⟩ | ⟨-, hdepth, -⟩ := depth_prepare h
    · cases he
    · exact hdepth
  obtain ⟨m₁, -, bound⟩ := Bridge.prepare_ok h
  have kept := (Machine.keepsStack_bindResources s.reflection.resources m₁ g).depth
  rw [bound] at kept
  exact ⟨m₁, (kept.symm.trans opened) ▸ Nat.one_pos, bound⟩

variable {p : Program} {s : Shader} {l : Layouts} {v : VarDecl} {t : TypeExpr}

theorem Memory.texture_of_getElem? {m : Memory} {id : TextureId} {t : Texture}
    (h : m.textures[id]? = some t) : m.texture id = .ok t := by
  rw [texture, h]
  rfl

/-- A variable declared with the type of an array texture is a resource. If no other has its name or its slot,
every dispatch that gets ready with a texture in the slot binds the name to that texture, and from
then on, whatever is written to the texture, a call with coordinates and a layer inside of it loads or
stores the texel of these coordinates in that layer if the type is written without parameters, and in
layer zero otherwise. -/
theorem Attempt.arrayTexture_texels (hapart : LayoutM.TypesApart p.nodes)
    (hs : Shader.ofProgram p = .ok (s, l)) (hv : .value .var v ∈ p.declarations)
    (hspace : v.storage = none) (ht : v.type = some t) (harray : t.IsArrayTexture) :
    ∃ r ∈ s.reflection.resources, r.name = v.name ∧
      ∀ {entry : String} {workgroups : Extent} {g rest : BindGroups} {config : Config} {m m' : Machine}
        {plan : DispatchPlan} {data : Array UInt8} {size : Extent} {format : TexelFormat},
        (∀ u ∈ s.reflection.resources, u.name = r.name ∨ u.slot = r.slot → u = r) →
        (prepare s entry workgroups g config).run m = .ok (.ok (plan, rest), m') →
        g.find? r.slot = some (.texture data size format) →
        ∃ id bound, m'.scopes.findIn? ScopeArena.root v.name = some (.value (.texture id)) ∧
          m'.memory.texture id = .ok bound ∧
          (bound.data = data ∧ bound.size = size ∧ bound.format = format) ∧
          ∀ (n : Machine) (now : Array UInt8), n.memory.texture id = .ok (bound.withData now) →
            ∀ {cs layer : Value} {x y z : Nat}, cs.components.mapM Value.integer = .ok [(x : Int), y] →
              layer.integer = .ok (z : Int) → x < size.x → y < size.y → z < size.z →
              Eval.Addresses n id (bound.withData now) cs layer
                ((((if t.hasParams then 0 else z) * size.y + y) * size.x + x) *
                  format.bytesPerTexel) := by
  have hreflect : (Reflection.ofProgram p).run (Layouts.ofProgram p) = .ok (s.reflection, l) := by
    unfold Shader.ofProgram at hs
    obtain ⟨r, hr, hs⟩ := Fault.bind_ok hs
    cases hs
    exact hr
  obtain ⟨info, hinfo, hresource⟩ :=
    Reflection.resource_of_generator hapart hreflect hv ht harray.isGenerator
  obtain ⟨kind, hkind, htexture⟩ := harray.kind hinfo
  obtain ⟨r, hr, hname, rfl, rfl⟩ := hresource kind (by rw [hspace]; exact hkind)
  refine ⟨r, hr, hname, ?_⟩
  intro entry workgroups g rest config m m' plan data size format hown hprepare hg
  obtain ⟨m₁, hopen, hbound⟩ := bound_of_prepare hprepare
  obtain ⟨-, id, hscope, hmemory⟩ := Machine.bindResources_texture htexture hr hown hopen hg
  rw [hbound, hname] at hscope
  rw [hbound, hinfo] at hmemory
  have texture := Memory.texture_of_getElem? hmemory
  refine ⟨id, _, hscope, texture, ⟨rfl, rfl, rfl⟩, fun n now hn cs layer x y z hcs hlayer hx hy hz => ?_⟩
  have layers := harray.arrayed_withView { data, size, format }
  have addressed := Eval.addresses_of_view hcs hlayer hn hx hy hz
  have chosen : (if ((Texture.withView { data, size, format } t.text).withData now).arrayed then z else 0) =
      if t.hasParams then 0 else z := by
    change (if (Texture.withView { data, size, format } t.text).arrayed then z else 0) = _
    rw [layers]
    cases t.hasParams <;> rfl
  rw [chosen] at addressed
  exact addressed

/-! ## A texture with two layers -/

/-- A variable of a type and an entry point that does nothing. -/
def textureVariable (type : TypeExpr) : Program where
  declarations := [
    .value .var {
      name := "t", type := some type, storage := none, access := none, value := none
      attributes := [], line := 1 },
    .function {
      name := "main", args := [], returnType := none, returnAttributes := []
      attributes := [.mk "workgroup_size" [.literal ⟨2, 2⟩ (.int 1 none)] 2], body := []
      startLine := 2, endLine := 2 }]

def depthArray : TypeExpr := .template 1 [] "texture_depth_2d_array" none none none

/-- A texture with two layers of one texel each. -/
def twoLayers : BindGroups := ⟨[(⟨0, 0⟩, .texture #[7, 0, 0, 0, 9, 0, 0, 0] ⟨1, 1, 2⟩ .r32uint)]⟩

/-- The slots of the resources of a module whose entry point can be dispatched. -/
def Attempt.readied (p : Program) : Except Fault (List BindSlot) := do
  let (s, l) ← Shader.ofProgram p
  let (outcome, _) ← (prepare s "main" ⟨1, 1, 1⟩ twoLayers []).run { layouts := l }
  let _ ← outcome
  return s.reflection.resources.map Resource.slot

theorem Attempt.of_readied {slots : List BindSlot} (h : readied p = .ok slots) :
    ∃ s l plan rest m, Shader.ofProgram p = .ok (s, l) ∧
      (prepare s "main" ⟨1, 1, 1⟩ twoLayers []).run { layouts := l } = .ok (.ok (plan, rest), m) ∧
      s.reflection.resources.map Resource.slot = slots := by
  obtain ⟨⟨s, l⟩, hs, h⟩ := Fault.bind_ok h
  obtain ⟨⟨outcome, m⟩, hprepare, h⟩ := Fault.bind_ok h
  obtain ⟨⟨plan, rest⟩, rfl, h⟩ := Fault.bind_ok h
  exact ⟨s, l, plan, rest, m, hs, hprepare, Except.ok.inj h⟩

theorem textureVariable_apart {type : TypeExpr} (h : LayoutM.TypesApart type.nodes) :
    LayoutM.TypesApart (textureVariable type).nodes := by
  have inside : ∀ t, Node.type t ∈ (textureVariable type).nodes → Node.type t ∈ type.nodes := by
    intro t ht
    simpa [Program.nodes, textureVariable, Declaration.nodes, VarDecl.nodes, Function.nodes,
      TypeExpr.paramNodes, Expr.countNodes, Attribute.listNodes, Attribute.nodes, Expr.listNodes,
      Expr.nodes, Stmt.listNodes] using ht
  exact fun t t' ht ht' => h t t' (inside t ht) (inside t' ht')

/-- The texel of the second layer of a texture for depth. -/
theorem Attempt.arrayTexture_texels_depth : ∃ (n : Machine) (id : TextureId) (bound : Texture),
    n.memory.texture id = .ok bound ∧ bound.data = #[7, 0, 0, 0, 9, 0, 0, 0] ∧
    (Eval.callBuiltin "textureLoad" [.texture id, .vector [.u32 0, .u32 0], .u32 1]).run n =
      .ok (bound.texelAt 4, n) := by
  have ready : readied (textureVariable depthArray) = .ok [⟨0, 0⟩] := by rfl
  obtain ⟨s, l, plan, rest, m, hs, hprepare, hslots⟩ := of_readied ready
  have apart : LayoutM.TypesApart (textureVariable depthArray).nodes :=
    textureVariable_apart fun t t' ht ht' _ => by
      simp only [depthArray, TypeExpr.nodes, Attribute.listNodes, TypeExpr.paramNodes, List.append_nil,
        List.mem_singleton, Node.type.injEq] at ht ht'
      rw [ht, ht']
  obtain ⟨r, hr, -, addressed⟩ :=
    arrayTexture_texels apart hs List.mem_cons_self rfl rfl (.depth 1 [])
  obtain ⟨only, honly, hslot⟩ := List.map_eq_singleton_iff.1 hslots
  rw [honly] at hr addressed
  obtain rfl := List.mem_singleton.1 hr
  obtain ⟨id, bound, -, hbound, ⟨hdata, -, -⟩, calls⟩ :=
    addressed (fun u hu _ => List.mem_singleton.1 hu) hprepare (by rw [hslot]; rfl)
  refine ⟨m, id, bound, hbound, hdata, ?_⟩
  have corner : (Value.vector [.u32 0, .u32 0]).components.mapM Value.integer =
      .ok [((0 : Nat) : Int), ((0 : Nat) : Int)] := rfl
  have second : (Value.u32 1).integer = .ok ((1 : Nat) : Int) := rfl
  have called := calls m bound.data hbound corner second Nat.one_pos Nat.one_pos (by decide)
  exact called.load [] (Nat.zero_le 1)

/-- The value is a texel with one component. -/
def Value.isTexel (red : UInt32) : Value → Bool
  | .vector [.u32 x, .u32 y, .u32 z, .u32 w] => x == red && y == 0 && z == 0 && w == 1
  | _ => false

theorem Value.eq_of_isTexel {red : UInt32} {r : Run Value}
    (h : r.toOption.any (Value.isTexel red) = true) :
    r = .ok (.vector [.u32 red, .u32 0, .u32 0, .u32 1]) := by
  cases r with
  | error e => cases h
  | ok v =>
    change v.isTexel red = true at h
    revert h
    fun_cases Value.isTexel red v with
    | case1 x y z w =>
      simp only [Bool.and_eq_true, beq_iff_eq]
      rintro ⟨⟨⟨rfl, rfl⟩, rfl⟩, rfl⟩
      rfl
    | case2 => nofun

/-- The first texture is bound to the variable. -/
def Slot.isFirstTexture : Slot → Bool
  | .value (.texture id) => id == 0
  | _ => false

theorem Slot.eq_of_isFirstTexture {slot : Slot} (h : slot.isFirstTexture = true) :
    slot = .value (.texture 0) := by
  revert h
  fun_cases Slot.isFirstTexture slot with
  | case1 id =>
    intro h
    rw [beq_iff_eq.1 h]
  | case2 => nofun

/-- What is bound to the variable of a module whose entry point can be dispatched, the texel behind the
first four bytes of the texture, and what is loaded from the second layer. -/
def Attempt.loaded (p : Program) : Except Fault ((Option Slot × Run Value) × Run Value) := do
  let r ← Shader.ofProgram p
  let bound ← (prepare r.1 "main" ⟨1, 1, 1⟩ twoLayers []).run { layouts := r.2 }
  let _ ← bound.1
  let call ← (Eval.callBuiltin "textureLoad"
    [.texture 0, .vector [.u32 0, .u32 0], .u32 1]).run bound.2
  return ((bound.2.scopes.findIn? ScopeArena.root "t",
    bound.2.memory.texture 0 >>= fun t => t.texelAt 4), call.1)

/-- With a parameter the layer is not read: the texel of the first layer is loaded in place of the
one of the second layer. -/
theorem Attempt.arrayTexture_layer_ignored : ∃ s l plan rest m t,
    Shader.ofProgram (textureVariable
      (.template 1 [] "texture_2d_array" (some (.named 0 [] "u32")) none none)) = .ok (s, l) ∧
    (prepare s "main" ⟨1, 1, 1⟩ twoLayers []).run { layouts := l } = .ok (.ok (plan, rest), m) ∧
    m.scopes.findIn? ScopeArena.root "t" = some (.value (.texture 0)) ∧
    m.memory.texture 0 = .ok t ∧ t.texelAt 4 = .ok (.vector [.u32 9, .u32 0, .u32 0, .u32 1]) ∧
    (Eval.callBuiltin "textureLoad" [.texture 0, .vector [.u32 0, .u32 0], .u32 1]).run m =
      .ok (.ok (.vector [.u32 7, .u32 0, .u32 0, .u32 1]), m) := by
  have checked : (loaded (textureVariable
      (.template 1 [] "texture_2d_array" (some (.named 0 [] "u32")) none none))).toOption.any (fun r =>
        r.1.1.any Slot.isFirstTexture && r.1.2.toOption.any (Value.isTexel 9) &&
          r.2.toOption.any (Value.isTexel 7)) = true := by decide +kernel
  obtain ⟨⟨⟨slot?, texel⟩, called⟩, hseen, checked⟩ := (Option.any_eq_true _ _).1 checked
  simp only [Bool.and_eq_true] at checked
  obtain ⟨⟨hslot, htexel⟩, hcalled⟩ := checked
  obtain ⟨slot, rfl, hslot⟩ := (Option.any_eq_true _ _).1 hslot
  obtain rfl := Value.eq_of_isTexel htexel
  obtain rfl := Value.eq_of_isTexel hcalled
  obtain rfl := Slot.eq_of_isFirstTexture hslot
  obtain ⟨⟨s, l⟩, hs, seen⟩ := Fault.bind_ok (Fault.ok_of_toOption hseen)
  obtain ⟨⟨outcome, m⟩, hprepare, seen⟩ := Fault.bind_ok seen
  obtain ⟨⟨plan, rest⟩, rfl, seen⟩ := Fault.bind_ok seen
  obtain ⟨⟨loaded, m'⟩, hcall, seen⟩ := Fault.bind_ok seen
  obtain ⟨hfirst, rfl⟩ := Prod.ext_iff.1 (Except.ok.inj seen)
  obtain ⟨hscope, htexel⟩ := Prod.ext_iff.1 hfirst
  change (m.memory.texture 0 >>= fun t => t.texelAt 4) = _ at htexel
  cases ht : m.memory.texture 0 with
  | error e =>
    rw [ht] at htexel
    cases htexel
  | ok t =>
    rw [ht] at htexel
    -- a call that loads leaves the machine as it was
    have corner : (Value.vector [.u32 0, .u32 0]).components.mapM Value.integer =
        .ok [((0 : Nat) : Int), ((0 : Nat) : Int)] := rfl
    have second : (Value.u32 1).integer = .ok ((1 : Nat) : Int) := rfl
    have run := Eval.run_textureLoad ht (Eval.coordinates_of_view (t := t) corner second [])
    rw [← Eval.callBuiltin_textureLoad (by simp)] at run
    rw [run] at hcall
    obtain ⟨hloaded, rfl⟩ := Prod.ext_iff.1 (Except.ok.inj hcall)
    exact ⟨s, l, plan, rest, m, t, hs, hprepare, hscope, ht, htexel,
      run.trans (congrArg (fun r => Except.ok (r, m)) hloaded)⟩

end Wgsl
