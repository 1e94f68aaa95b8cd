import Wgsl.Memory.Path
import Wgsl.Proofs.Value.Renaming

/-! # Memory under renaming

Bytes hold no names: what is loaded from a buffer or a texture has none in it, and a store writes the
same bytes whatever the names in the stored value are.
-/

namespace Wgsl
set_option autoImplicit false

open Number (Single)
open Value (rename)

variable {ρ : Renaming}

/-! ## Loading -/

theorem values_plain {f : Nat → Run Value} (hf : ∀ i, rename ρ <$> f i = f i) (count : Nat) :
    List.map (rename ρ) <$> Run.values count f = Run.values count f :=
  (Value.valuesFrom_natural (fun i => (hf i).symm) count 0 []).symm

theorem ScalarKind.rename_decode (kind : ScalarKind) (bytes : List UInt8) :
    (kind.decode bytes).rename ρ = kind.decode bytes := by
  cases kind <;> simp [decode]

namespace Memory

theorem plain_loadScalar (m : Memory) (kind : ScalarKind) (buffer start : Nat) :
    rename ρ <$> m.loadScalar kind buffer start = m.loadScalar kind buffer start := by
  unfold loadScalar
  exact Value.plain_bind (fun _ => congrArg Except.ok (kind.rename_decode _)) _

mutual

/-- What is loaded has no names in it. -/
theorem plain_loadAt (m : Memory) (buffer : Nat) : ∀ (t : TypeInfo) (offset : Nat),
    rename ρ <$> m.loadAt buffer t offset = m.loadAt buffer t offset
  | .mk name attributes size align shape, offset => by
    rw [loadAt, plain_loadShape m _ shape]

theorem plain_loadShape (m : Memory) (v : BufferView) : ∀ shape : TypeShape,
    rename ρ <$> m.loadShape v shape = m.loadShape v shape
  | .scalar kind => by rw [loadShape, plain_loadScalar]
  | .handle => by rw [loadShape]; rfl
  | .array element count stride => by
    have parts := values_plain (ρ := ρ) (f := fun (i : Nat) => do
      loadAt m v.buffer element (← v.element i (m.runtimeCount v)).offset) (fun i =>
        Value.plain_bind (fun part => plain_loadAt m v.buffer element part.offset) _) (m.runtimeCount v)
    rw [loadShape]
    conv_rhs => rw [← parts]
    generalize Run.values _ _ = x
    cases x <;> simp
  | .struct key members first last => by
    have parts := plain_loadMembers m v members
    rw [loadShape]
    conv_rhs => rw [← parts]
    generalize m.loadMembers v members = x
    cases x <;> simp
  | .template base param access space => by
    rw [loadShape]
    split
    · exact Value.plain_map (fun _ => Value.rename_matrix _) _
    · split
      · rename_i length _
        have parts := plain_loadComponents m length v param
        conv_rhs => rw [← parts]
        generalize m.loadComponents length v param = x
        cases x <;> simp
      · split
        · exact plain_loadScalar ..
        · rfl

theorem plain_loadComponents (m : Memory) (length : Nat) (v : BufferView) :
    ∀ param : Option TypeInfo,
      List.map (rename ρ) <$> m.loadComponents length v param = m.loadComponents length v param
  | none => by
    rw [loadComponents]
    refine values_plain (fun i => Value.plain_bind (fun part => ?_) _) length
    rfl
  | some element => by
    rw [loadComponents]
    exact values_plain (fun i =>
      Value.plain_bind (fun part => plain_loadAt m v.buffer element part.offset) _) length

theorem plain_loadMembers (m : Memory) (v : BufferView) : ∀ members : List MemberInfo,
    List.map (fun f => (f.1, f.2.rename ρ)) <$> m.loadMembers v members = m.loadMembers v members
  | [] => by rw [loadMembers]; rfl
  | .mk name type offset size align :: rest => by
    rw [loadMembers]
    cases v.shifted offset type with
    | error e => rfl
    | ok part =>
      have head := plain_loadAt m v.buffer type part.offset
      have tail := plain_loadMembers m v rest
      simp only [bind, Except.bind]
      cases hv : m.loadAt v.buffer type part.offset with
      | error e => rfl
      | ok value =>
        cases hf : m.loadMembers v rest with
        | error e => rfl
        | ok fields =>
          rw [hv] at head
          rw [hf] at tail
          have hvalue : value.rename ρ = value := Except.ok.inj head
          have hfields : fields.map (fun f => (f.1, f.2.rename ρ)) = fields := Except.ok.inj tail
          simp [Functor.map, Except.map, pure, Except.pure, hvalue, hfields]

end

theorem rename_of_load {m : Memory} {v : BufferView} {value : Value} (h : m.load v = .ok value) :
    value.rename ρ = value := by
  have plain := plain_loadAt (ρ := ρ) m v.buffer v.type v.offset
  rw [load] at h
  rw [h] at plain
  exact Except.ok.inj plain

/-- What is read along a path has no names in it. -/
theorem plain_readPath (m : Memory) (v : BufferView) (path : List Access) :
    rename ρ <$> m.readPath v path = m.readPath v path := by
  unfold readPath
  refine Value.plain_bind (fun target => ?_) _
  cases target with
  | view v => exact plain_loadAt m v.buffer v.type v.offset
  | swizzle vector indices rest =>
    dsimp only
    cases hl : m.load vector with
    | error e => rfl
    | ok value =>
      have hvalue : value.components.map (rename ρ) = value.components := by
        rw [← Value.components_rename, rename_of_load hl]
      refine (Value.natural_mapM_bind (fun i => ?_) (fun picked => ?_) indices).symm
      · have hi : (value.components.map (rename ρ))[i]? = value.components[i]? := by rw [hvalue]
        rw [List.getElem?_map] at hi
        cases hv : value.components[i]? with
        | none => rfl
        | some c =>
          rw [hv] at hi
          exact congrArg Except.ok (Option.some.inj hi).symm
      · have h := Value.natural_atPath (ρ := ρ) rest (.vector picked)
        dsimp only at h
        rwa [Value.rename_vector] at h

/-! ## Storing -/

theorem encode_rename (kind : ScalarKind) (v : Value) : kind.encode (v.rename ρ) = kind.encode v := by
  cases kind <;> simp [ScalarKind.encode]

theorem storeScalar_rename (kind : ScalarKind) (buffer start : Nat) (v : Value) :
    storeScalar kind buffer start (v.rename ρ) = storeScalar kind buffer start v := by
  rw [storeScalar, storeScalar, encode_rename]

theorem unstorable_rename (v : Value) (t : TypeInfo) : unstorable (v.rename ρ) t = unstorable v t := by
  simp [unstorable]

theorem spread_rename (count : Nat) (t : TypeInfo) (v : Value) :
    spread count t (v.rename ρ) = List.map (rename ρ) <$> spread count t v := by
  have counted : ∀ parts : List Value,
      (if (parts.map (rename ρ)).length = count then (pure (parts.map (rename ρ)) : Run (List Value))
      else throw (RunCause.vectorLength count (parts.map (rename ρ)).length).unplaced) =
      List.map (rename ρ) <$> (if parts.length = count then pure parts
      else throw (RunCause.vectorLength count parts.length).unplaced) := by
    intro parts
    rw [List.length_map]
    split <;> rfl
  have filled : ∀ c : Value, c.rename ρ = c →
      (List.replicate count c).map (rename ρ) = List.replicate count c := by
    intro c hc
    rw [List.map_replicate, hc]
  unfold spread
  cases v with
  | vector items =>
    rw [Value.rename_vector]
    exact counted items
  | matrix columns =>
    have h := counted (columns.map Value.ofSingles)
    rw [List.map_map, Function.comp_def] at h
    simp only [Value.rename_ofSingles] at h
    rw [Value.rename_matrix]
    exact h
  | bool b =>
    have h := counted (List.replicate count (.bool b))
    rw [filled _ (Value.rename_bool b)] at h
    rw [Value.rename_bool]
    exact h
  | i32 n =>
    have h := counted (List.replicate count (.i32 n))
    rw [filled _ (Value.rename_i32 n)] at h
    rw [Value.rename_i32]
    exact h
  | u32 n =>
    have h := counted (List.replicate count (.u32 n))
    rw [filled _ (Value.rename_u32 n)] at h
    rw [Value.rename_u32]
    exact h
  | f32 x =>
    have h := counted (List.replicate count (.f32 x))
    rw [filled _ (Value.rename_f32 x)] at h
    rw [Value.rename_f32]
    exact h
  | void | sampler => simp; rfl
  | array _ | struct _ _ | pointer _ | texture _ =>
    simp [Value.isScalar, unstorable]
    rfl

theorem forM_zipIdx_rename {σ : Type} {f f' : Value × Nat → Change σ Unit}
    (h : ∀ v i, f' (v.rename ρ, i) = f (v, i)) (items : List Value) (start : Nat) :
    ((items.map (rename ρ)).zipIdx start).forM f' = (items.zipIdx start).forM f := by
  induction items generalizing start with
  | nil => rfl
  | cons v rest ih =>
    rw [List.map_cons, List.zipIdx_cons, List.zipIdx_cons]
    show (f' (v.rename ρ, start) >>= fun _ => ((rest.map (rename ρ)).zipIdx (start + 1)).forM f') =
      (f (v, start) >>= fun _ => (rest.zipIdx (start + 1)).forM f)
    rw [h, ih]

theorem storeShape_array_other (view : BufferView) {v : Value} {element : TypeInfo}
    {count : Option Nat} {stride : Nat} (h : ∀ items, v ≠ .array items) :
    storeShape view (.array element count stride) v = throw (unstorable v view.type) := by
  rw [storeShape]
  exact h

theorem storeShape_struct_other (view : BufferView) {v : Value} {key : StructKey}
    {members : List MemberInfo} {first last : Nat} (h : ∀ name fields, v ≠ .struct name fields) :
    storeShape view (.struct key members first last) v = throw (unstorable v view.type) := by
  rw [storeShape]
  exact h

theorem lift_bind_rename {σ : Type} {x : Run (List Value)} {f f' : List Value → Change σ Unit}
    (h : ∀ parts, f' (parts.map (rename ρ)) = f parts) :
    ((List.map (rename ρ) <$> x : Run (List Value)) >>= f' : Change σ Unit) = liftM x >>= f := by
  cases x with
  | error e => rfl
  | ok parts => exact h parts

mutual

/-- A store writes the same bytes whatever the names are. -/
theorem storeAt_rename (buffer : Nat) : ∀ (t : TypeInfo) (offset : Nat) (v : Value),
    storeAt buffer t offset (v.rename ρ) = storeAt buffer t offset v
  | .mk name attributes size align shape, offset, v => by
    rw [storeAt, storeAt, storeShape_rename _ shape v]

theorem storeShape_rename (view : BufferView) : ∀ (shape : TypeShape) (v : Value),
    storeShape view shape (v.rename ρ) = storeShape view shape v
  | .scalar kind, v => by rw [storeShape, storeShape, storeScalar_rename]
  | .handle, v => by rw [storeShape, storeShape, unstorable_rename]
  | .array element count stride, v => by
    by_cases h : ∃ items, v = .array items
    · obtain ⟨items, rfl⟩ := h
      rw [Value.rename_array, storeShape, storeShape]
      simp only [List.length_map, ← List.map_take]
      congr 1
      funext m
      refine forM_zipIdx_rename (fun item i => ?_) _ 0
      dsimp only
      congr 1
      funext part
      exact storeAt_rename view.buffer element part.offset item
    · rw [not_exists] at h
      have h' : ∀ items, v.rename ρ ≠ .array items := by
        intro items e
        cases v <;> simp at e h
      rw [storeShape_array_other view h, storeShape_array_other view h', unstorable_rename]
  | .struct key members first last, v => by
    by_cases h : ∃ name fields, v = .struct name fields
    · obtain ⟨name, fields, rfl⟩ := h
      rw [Value.rename_struct, storeShape, storeShape, storeMembers_rename view fields members]
    · simp only [not_exists] at h
      have h' : ∀ name fields, v.rename ρ ≠ .struct name fields := by
        intro name fields e
        cases v <;> simp at e h
      rw [storeShape_struct_other view h, storeShape_struct_other view h', unstorable_rename]
  | .template base param access space, v => by
    rw [storeShape, storeShape]
    split
    · rw [spread_rename]
      refine lift_bind_rename fun parts => ?_
      refine forM_zipIdx_rename (fun item i => ?_) _ 0
      dsimp only
      congr 1
      funext part
      exact storeComponents_rename _ part param item
    · split
      · exact storeComponents_rename _ view param v
      · split
        · exact storeScalar_rename ..
        · rw [unstorable_rename]

theorem storeComponents_rename (length : Nat) (view : BufferView) :
    ∀ (param : Option TypeInfo) (v : Value),
      storeComponents length view param (v.rename ρ) = storeComponents length view param v
  | none, v => by
    rw [storeComponents, storeComponents, spread_rename]
    refine lift_bind_rename fun parts => ?_
    refine forM_zipIdx_rename (fun item i => ?_) _ 0
    dsimp only
    congr 1
    funext part
    rw [unstorable_rename]
  | some element, v => by
    rw [storeComponents, storeComponents, spread_rename]
    refine lift_bind_rename fun parts => ?_
    refine forM_zipIdx_rename (fun item i => ?_) _ 0
    dsimp only
    congr 1
    funext part
    exact storeAt_rename view.buffer element part.offset item

theorem storeMembers_rename (view : BufferView) (fields : List (String × Value)) :
    ∀ members : List MemberInfo,
      storeMembers view (fields.map fun f => (f.1, f.2.rename ρ)) members =
        storeMembers view fields members
  | [] => by rw [storeMembers, storeMembers]
  | .mk name type offset size align :: rest => by
    rw [storeMembers, storeMembers, Value.find?_map_rename, storeMembers_rename view fields rest]
    cases Table.find? fields name with
    | none => rfl
    | some value =>
      have same := fun offset => storeAt_rename view.buffer type offset value
      simp only [Option.map_some, same]

end

theorem store_rename (view : BufferView) (v : Value) : store view (v.rename ρ) = store view v :=
  storeAt_rename view.buffer view.type view.offset v

theorem writePath_rename (view : BufferView) (path : List Access) (new : Value) :
    writePath view path (new.rename ρ) = writePath view path new := by
  unfold writePath
  congr 1
  funext m
  congr 1
  funext target
  cases target with
  | view v => exact store_rename v new
  | swizzle vector indices rest =>
    cases rest with
    | cons a more => rfl
    | nil =>
      dsimp only
      cases hl : m.load vector with
      | error e => rfl
      | ok old =>
        have same := Value.alike_assignPath (ρ := ρ) [.member (swizzleOf indices)] new old
        rw [rename_of_load hl] at same
        change (pure old >>= _ : Change Memory Unit) = pure old >>= _
        rw [pure_bind, pure_bind]
        rw [same]
        rcases (Value.assignPath [.member (swizzleOf indices)] new).apply old with ⟨outcome, changed⟩
        cases outcome with
        | error e => rfl
        | ok u => exact store_rename vector changed

end Memory

/-! ## Textures -/

namespace Texture

theorem rename_unit (one : Bool) (c : Channel) : (c.unit one).rename ρ = c.unit one := by
  cases c <;> simp [Channel.unit]

theorem rename_decode (c : Channel) (bytes : List UInt8) :
    (c.decode bytes).rename ρ = c.decode bytes := by
  cases c <;> simp [Channel.decode]

theorem map_rename_channels (t : Texture) (start count : Nat) :
    (t.channels start count).map (rename ρ) = t.channels start count := by
  simp [channels, Function.comp_def, rename_decode]

theorem map_rename_swapped (f : TexelFormat) (items : List Value) :
    (f.swapped items).map (rename ρ) = f.swapped (items.map (rename ρ)) := by
  rcases items with _ | ⟨a, _ | ⟨b, _ | ⟨c, rest⟩⟩⟩ <;> cases f <;> rfl

theorem map_rename_padded (c : Channel) {texel : List Value} (h : texel.map (rename ρ) = texel) :
    (padded c texel).map (rename ρ) = padded c texel := by
  simp [padded, h, List.map_drop, rename_unit]

/-- A texel has no names in it. -/
theorem plain_load (t : Texture) (coords : List Int) : rename ρ <$> t.load coords = t.load coords := by
  unfold load
  refine Value.plain_bind (fun start => ?_) _
  refine congrArg Except.ok ?_
  rw [Value.rename_vector, map_rename_padded]
  rw [map_rename_swapped, map_rename_channels]

theorem encode_rename (c : Channel) (v : Value) : c.encode (v.rename ρ) = c.encode v := by
  cases c <;> simp [Channel.encode]

theorem storeChannels_rename (c : Channel) (start : Nat) (parts : List Value) :
    storeChannels c start (parts.map (rename ρ)) = storeChannels c start parts := by
  induction parts generalizing start with
  | nil => rfl
  | cons v rest ih => rw [List.map_cons, storeChannels, storeChannels, encode_rename, ih]

theorem store_rename (coords : List Int) (v : Value) :
    store coords (v.rename ρ) = store coords v := by
  unfold store
  simp only [Value.components_rename, ← map_rename_swapped, ← List.map_take, storeChannels_rename]

end Texture

end Wgsl
