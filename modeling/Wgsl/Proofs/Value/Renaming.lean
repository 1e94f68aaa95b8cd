import Mathlib.Data.List.Basic
import Wgsl.Value.Construct
import Wgsl.Value.Operator
import Wgsl.Value.Path

/-! # Values under renaming

Pointers and textures are names for something outside the value. No operation on values looks into
such a name, so every operation commutes with a change of names.

* `Value.rename`: the value with other names in it.
* `Value.Invariant`: a function whose outcome does not depend on names.
* `Value.Natural`: a function that hands names on.

An operation that commutes with every renaming also brings no new name in: if a renaming leaves the
operands as they are, it leaves the outcome as it is.
-/

namespace Wgsl
set_option autoImplicit false

open Number (Single)

/-- Other names for places and textures. -/
structure Renaming where
  place : Place → Place
  texture : TextureId → TextureId

namespace Value

variable {ρ : Renaming}

mutual

/-- The value with other names. -/
def rename (ρ : Renaming) : Value → Value
  | .vector items => .vector (renames ρ items)
  | .array items => .array (renames ρ items)
  | .struct name fields => .struct name (renameFields ρ fields)
  | .pointer p => .pointer (ρ.place p)
  | .texture id => .texture (ρ.texture id)
  | .void => .void
  | .bool b => .bool b
  | .i32 n => .i32 n
  | .u32 n => .u32 n
  | .f32 x => .f32 x
  | .matrix columns => .matrix columns
  | .sampler => .sampler

def renames (ρ : Renaming) : List Value → List Value
  | [] => []
  | v :: rest => rename ρ v :: renames ρ rest

def renameFields (ρ : Renaming) : List (String × Value) → List (String × Value)
  | [] => []
  | (name, v) :: rest => (name, rename ρ v) :: renameFields ρ rest

end

theorem renames_eq_map (ρ : Renaming) (items : List Value) : renames ρ items = items.map (rename ρ) := by
  induction items with
  | nil => rfl
  | cons v rest ih => rw [renames, ih, List.map_cons]

theorem renameFields_eq_map (ρ : Renaming) (fields : List (String × Value)) :
    renameFields ρ fields = fields.map fun f => (f.1, f.2.rename ρ) := by
  induction fields with
  | nil => rfl
  | cons f rest ih => rw [renameFields, ih, List.map_cons]

@[simp] theorem rename_void : rename ρ .void = .void := rfl
@[simp] theorem rename_bool (b : Bool) : rename ρ (.bool b) = .bool b := rfl
@[simp] theorem rename_i32 (n : Int32) : rename ρ (.i32 n) = .i32 n := rfl
@[simp] theorem rename_u32 (n : UInt32) : rename ρ (.u32 n) = .u32 n := rfl
@[simp] theorem rename_f32 (x : Single) : rename ρ (.f32 x) = .f32 x := rfl
@[simp] theorem rename_sampler : rename ρ .sampler = .sampler := rfl

@[simp] theorem rename_matrix (columns : List (List Single)) :
    rename ρ (.matrix columns) = .matrix columns := rfl

@[simp] theorem rename_pointer (p : Place) : rename ρ (.pointer p) = .pointer (ρ.place p) := rfl

@[simp] theorem rename_texture (id : TextureId) :
    rename ρ (.texture id) = .texture (ρ.texture id) := rfl

@[simp] theorem rename_vector (items : List Value) :
    rename ρ (.vector items) = .vector (items.map (rename ρ)) := by rw [rename, renames_eq_map]

@[simp] theorem rename_array (items : List Value) :
    rename ρ (.array items) = .array (items.map (rename ρ)) := by rw [rename, renames_eq_map]

@[simp] theorem rename_struct (name : String) (fields : List (String × Value)) :
    rename ρ (.struct name fields) = .struct name (fields.map fun f => (f.1, f.2.rename ρ)) := by
  rw [rename, renameFields_eq_map]

@[simp] theorem rename_ofSingles (xs : List Single) : rename ρ (ofSingles xs) = ofSingles xs := by
  simp [ofSingles, Function.comp_def]

/-! ## Names that stay -/

section

variable {σ τ : Renaming}

mutual

/-- Two renamings that agree on all names that a third one leaves. -/
theorem rename_congr_of_fixed (hp : ∀ q, ρ.place q = q → σ.place q = τ.place q)
    (ht : ∀ i, ρ.texture i = i → σ.texture i = τ.texture i) :
    ∀ v : Value, v.rename ρ = v → v.rename σ = v.rename τ
  | .vector items, h => by
    rw [rename] at h
    rw [rename, rename, renames_congr_of_fixed hp ht items (Value.vector.inj h)]
  | .array items, h => by
    rw [rename] at h
    rw [rename, rename, renames_congr_of_fixed hp ht items (Value.array.inj h)]
  | .struct name fields, h => by
    rw [rename] at h
    rw [rename, rename, renameFields_congr_of_fixed hp ht fields (Value.struct.inj h).2]
  | .pointer q, h => congrArg Value.pointer (hp q (Value.pointer.inj h))
  | .texture i, h => congrArg Value.texture (ht i (Value.texture.inj h))
  | .void, _ => rfl
  | .bool _, _ => rfl
  | .i32 _, _ => rfl
  | .u32 _, _ => rfl
  | .f32 _, _ => rfl
  | .matrix _, _ => rfl
  | .sampler, _ => rfl

theorem renames_congr_of_fixed (hp : ∀ q, ρ.place q = q → σ.place q = τ.place q)
    (ht : ∀ i, ρ.texture i = i → σ.texture i = τ.texture i) :
    ∀ items : List Value, renames ρ items = items → renames σ items = renames τ items
  | [], _ => rfl
  | v :: rest, h => by
    rw [renames] at h
    obtain ⟨hv, hrest⟩ := List.cons.inj h
    rw [renames, renames, rename_congr_of_fixed hp ht v hv, renames_congr_of_fixed hp ht rest hrest]

theorem renameFields_congr_of_fixed (hp : ∀ q, ρ.place q = q → σ.place q = τ.place q)
    (ht : ∀ i, ρ.texture i = i → σ.texture i = τ.texture i) : ∀ fields : List (String × Value),
    renameFields ρ fields = fields → renameFields σ fields = renameFields τ fields
  | [], _ => rfl
  | (name, v) :: rest, h => by
    rw [renameFields] at h
    obtain ⟨hv, hrest⟩ := List.cons.inj h
    rw [renameFields, renameFields, rename_congr_of_fixed hp ht v (Prod.mk.inj hv).2,
      renameFields_congr_of_fixed hp ht rest hrest]

end

end

/-! ## What does not depend on names -/

mutual

theorem typeName_rename : ∀ v : Value, (v.rename ρ).typeName = v.typeName
  | .vector items => by
    rw [rename_vector, typeName, typeName, firstTypeName_map _ items, List.length_map]
  | .array items => by
    rw [rename_array, typeName, typeName, firstTypeName_map _ items, List.length_map]
  | .struct _ _ => by rw [rename_struct, typeName, typeName]
  | .pointer _ => by rw [rename_pointer, typeName, typeName]
  | .texture _ => by rw [rename_texture, typeName, typeName]
  | .void => by rw [rename_void]
  | .bool _ => by rw [rename_bool]
  | .i32 _ => by rw [rename_i32]
  | .u32 _ => by rw [rename_u32]
  | .f32 _ => by rw [rename_f32]
  | .matrix _ => by rw [rename_matrix]
  | .sampler => by rw [rename_sampler]

theorem firstTypeName_map (missing : String) :
    ∀ items : List Value, firstTypeName missing (items.map (rename ρ)) = firstTypeName missing items
  | [] => rfl
  | v :: rest => by rw [List.map_cons, firstTypeName, firstTypeName, typeName_rename v]

end

mutual

theorem scalarKind?_rename : ∀ v : Value, (v.rename ρ).scalarKind? = v.scalarKind?
  | .vector items => by rw [rename_vector, scalarKind?, scalarKind?, firstScalarKind?_map items]
  | .array _ => by simp [scalarKind?]
  | .struct _ _ => by simp [scalarKind?]
  | .pointer _ => by simp [scalarKind?]
  | .texture _ => by simp [scalarKind?]
  | .void => by rw [rename_void]
  | .bool _ => by rw [rename_bool]
  | .i32 _ => by rw [rename_i32]
  | .u32 _ => by rw [rename_u32]
  | .f32 _ => by rw [rename_f32]
  | .matrix _ => by rw [rename_matrix]
  | .sampler => by rw [rename_sampler]

theorem firstScalarKind?_map :
    ∀ items : List Value, firstScalarKind? (items.map (rename ρ)) = firstScalarKind? items
  | [] => rfl
  | v :: rest => by rw [List.map_cons, firstScalarKind?, firstScalarKind?, scalarKind?_rename v]

end

attribute [simp] typeName_rename scalarKind?_rename

@[simp] theorem typeName_vector_map (items : List Value) :
    (vector (items.map (rename ρ))).typeName = (vector items).typeName := by
  rw [← rename_vector, typeName_rename]

@[simp] theorem typeName_array_map (items : List Value) :
    (array (items.map (rename ρ))).typeName = (array items).typeName := by
  rw [← rename_array, typeName_rename]

@[simp] theorem typeName_struct (name : String) (fields : List (String × Value)) :
    (struct name fields).typeName = name := by rw [typeName]

@[simp] theorem typeName_pointer (p : Place) : (pointer p).typeName = "ptr" := by rw [typeName]

@[simp] theorem typeName_texture (id : TextureId) : (texture id).typeName = "texture" := by
  rw [typeName]

@[simp] theorem isScalar_rename (v : Value) : (v.rename ρ).isScalar = v.isScalar := by
  cases v <;> simp [isScalar]

@[simp] theorem vectorLength?_rename (v : Value) : (v.rename ρ).vectorLength? = v.vectorLength? := by
  cases v <;> simp [vectorLength?]

@[simp] theorem components_rename (v : Value) :
    (v.rename ρ).components = v.components.map (rename ρ) := by
  cases v <;> simp [components, Function.comp_def]

@[simp] theorem number_rename (v : Value) : (v.rename ρ).number = v.number := by
  cases v <;> simp [number, expected]

@[simp] theorem integer_rename (v : Value) : (v.rename ρ).integer = v.integer := by
  cases v <;> simp [integer, expected]

@[simp] theorem signed_rename (v : Value) : (v.rename ρ).signed = v.signed := by
  cases v <;> simp [signed, integer, expected]

@[simp] theorem unsigned_rename (v : Value) : (v.rename ρ).unsigned = v.unsigned := by
  cases v <;> simp [unsigned, integer, expected]

@[simp] theorem truth_rename (v : Value) : (v.rename ρ).truth = v.truth := by
  cases v <;> simp [truth, expected]

@[simp] theorem bits_rename (v : Value) : (v.rename ρ).bits = v.bits := by
  cases v <;> simp [bits]

/-! ## Lists of values -/

theorem map_throw {α β : Type} (f : α → β) (e : RunError) :
    (f <$> throw e : Run β) = throw e := rfl

theorem mapM_map_invariant {α β : Type} {f : α → Run β} {g : α → α} (hf : ∀ a, f (g a) = f a)
    (xs : List α) : (xs.map g).mapM f = xs.mapM f := by
  induction xs with
  | nil => rfl
  | cons x rest ih => rw [List.map_cons, List.mapM_cons, List.mapM_cons, hf, ih]

theorem mapM_map_natural {α β : Type} {f f' : α → Run β} {g : α → α} {h : β → β}
    (hf : ∀ a, f' (g a) = h <$> f a) (xs : List α) :
    (xs.map g).mapM f' = List.map h <$> xs.mapM f := by
  induction xs with
  | nil => rfl
  | cons x rest ih =>
    rw [List.map_cons, List.mapM_cons, List.mapM_cons, hf, ih]
    cases f x with
    | error e => rfl
    | ok b => cases rest.mapM f <;> rfl

theorem valuesFrom_natural {f f' : Nat → Run Value} (hf : ∀ i, f' i = rename ρ <$> f i)
    (count start : Nat) (found : List Value) :
    Run.valuesFrom f' count start (found.map (rename ρ)) =
      List.map (rename ρ) <$> Run.valuesFrom f count start found := by
  induction count generalizing start found with
  | zero => simp [Run.valuesFrom]
  | succ count ih =>
    rw [Run.valuesFrom, Run.valuesFrom, hf]
    cases f start with
    | error e => rfl
    | ok v =>
      have h := ih (start + 1) (v :: found)
      rw [List.map_cons] at h
      exact h

@[simp] theorem numbers_rename (v : Value) : (v.rename ρ).numbers = v.numbers := by
  rw [numbers, numbers, components_rename, mapM_map_invariant number_rename]

@[simp] theorem mapM_number_map (items : List Value) :
    (items.map (rename ρ)).mapM number = items.mapM number :=
  mapM_map_invariant number_rename items

/-! ## What hands names on -/

/-- A function that treats pointers and textures as names only. -/
def Natural (ρ : Renaming) (f : Value → Run Value) : Prop :=
  ∀ v, f (v.rename ρ) = rename ρ <$> f v

theorem Natural.mapComponents {f : Value → Run Value} (hf : Natural ρ f) :
    Natural ρ (Value.mapComponents f) := by
  intro v
  cases v <;> simp only [Value.mapComponents, rename_vector] <;>
    first
    | (rw [← hf]; simp)
    | skip
  rename_i items
  rw [mapM_map_natural hf]
  cases items.mapM f <;> simp

/-- A function of a number, an integer or a truth value gives a value without names. -/
theorem natural_of_invariant {α : Type} {f : Value → Run α} {g : α → Value}
    (hf : ∀ v, f (v.rename ρ) = f v) (hg : ∀ a, (g a).rename ρ = g a) :
    Natural ρ fun v => g <$> f v := by
  intro v
  dsimp only
  rw [hf]
  cases f v with
  | error e => rfl
  | ok a => exact congrArg Except.ok (hg a).symm

theorem natural_convertScalar (kind : ScalarKind) : Natural ρ (convertScalar kind) := by
  cases kind
  · exact natural_of_invariant truth_rename fun _ => rename_bool _
  · exact natural_of_invariant signed_rename fun _ => rename_i32 _
  · exact natural_of_invariant unsigned_rename fun _ => rename_u32 _
  · exact natural_of_invariant number_rename fun _ => rename_f32 _
  · exact natural_of_invariant number_rename fun _ => rename_f32 _

theorem natural_convert (kind : ScalarKind) : Natural ρ (convert kind) :=
  (natural_convertScalar kind).mapComponents

theorem map_replicate_natural (length : Nat) (x : Run Value) :
    (do return vector (List.replicate length (← rename ρ <$> x)) : Run Value) =
      rename ρ <$> (do return vector (List.replicate length (← x))) := by
  cases x with
  | error e => rfl
  | ok c => simp

theorem natural_coerceTo (t : TypeInfo) : Natural ρ (coerceTo t) := by
  intro v
  unfold coerceTo
  simp only [vectorLength?_rename, isScalar_rename, natural_convert _ v]
  split
  · rfl
  · split
    · split <;> rfl
    · split
      · exact map_replicate_natural _ _
      · rfl
    · split <;> rfl
    · rfl

theorem natural_inKindOf (old v : Value) :
    inKindOf (old.rename ρ) (v.rename ρ) = rename ρ <$> inKindOf old v := by
  unfold inKindOf
  simp only [scalarKind?_rename, natural_convert _ v]
  split
  · split <;> rfl
  · rfl

theorem natural_coerceLike (old v : Value) :
    coerceLike (old.rename ρ) (v.rename ρ) = rename ρ <$> coerceLike old v := by
  unfold coerceLike
  simp only [vectorLength?_rename, isScalar_rename, natural_inKindOf]
  split
  · split <;> rfl
  · split <;> rfl
  · rfl

/-! ## Building values -/

@[simp] theorem rename_zero (kind : ScalarKind) : (zero kind).rename ρ = zero kind := by
  cases kind <;> simp [zero]

@[simp] theorem rename_zeroOfTemplate (base : String) (kind : ScalarKind) :
    (zeroOfTemplate base kind).rename ρ = zeroOfTemplate base kind := by
  unfold zeroOfTemplate
  split
  · simp
  · split
    · simp
    · split <;> simp

@[simp] theorem rename_zeroOfHandle (name : String) :
    (zeroOfHandle name).rename ρ = zeroOfHandle name := by
  unfold zeroOfHandle
  split <;> simp

mutual

theorem rename_zeroOf : ∀ t : TypeInfo, (zeroOf t).rename ρ = zeroOf t
  | .mk name attributes size align shape => by rw [zeroOf, rename_zeroOfShape name shape]

theorem rename_zeroOfShape (name : String) :
    ∀ shape : TypeShape, (zeroOfShape name shape).rename ρ = zeroOfShape name shape
  | .scalar kind => by rw [zeroOfShape, rename_zero]
  | .handle => by rw [zeroOfShape, rename_zeroOfHandle]
  | .array element count stride => by
    rw [zeroOfShape, rename_array, List.map_replicate, rename_zeroOf element]
  | .struct key members first last => by
    rw [zeroOfShape, rename_struct, map_rename_zeroFields members]
  | .template base param access space => by rw [zeroOfShape, rename_zeroOfTemplate]

theorem map_rename_zeroFields : ∀ members : List MemberInfo,
    ((zeroFields members).map fun f => (f.1, f.2.rename ρ)) = zeroFields members
  | [] => rfl
  | .mk name type offset size align :: rest => by
    rw [zeroFields, List.map_cons, rename_zeroOf type, map_rename_zeroFields rest]

end

attribute [simp] rename_zeroOf

@[simp] theorem rename_ofLiteral (l : Literal) : (ofLiteral l).rename ρ = ofLiteral l := by
  unfold ofLiteral
  split <;> (try split) <;> simp

theorem natural_ofBits (kind : ScalarKind) (n : UInt32) :
    rename ρ <$> ofBits kind n = ofBits kind n := by
  cases kind <;> simp [ofBits, map_throw]

theorem natural_bitcast (kind : ScalarKind) : Natural ρ (bitcast kind) := by
  apply Natural.mapComponents
  intro v
  dsimp only
  rw [bits_rename]
  cases v.bits with
  | error e => rfl
  | ok n => exact (natural_ofBits kind n).symm

theorem flatMap_components_map (args : List Value) :
    (args.map (rename ρ)).flatMap components = (args.flatMap components).map (rename ρ) := by
  rw [List.flatMap_map, List.map_flatMap]
  simp only [components_rename]

theorem natural_constructMatrix (columns height : Nat) (args : List Value) :
    constructMatrix columns height (args.map (rename ρ)) =
      rename ρ <$> constructMatrix columns height args := by
  unfold constructMatrix
  rw [flatMap_components_map, mapM_number_map]
  cases (args.flatMap components).mapM number with
  | error e => rfl
  | ok xs =>
    simp only [bind, Except.bind]
    split <;> rfl

theorem natural_constructVector (length : Nat) (kind : ScalarKind) (args : List Value) :
    constructVector length kind (args.map (rename ρ)) =
      rename ρ <$> constructVector length kind args := by
  have settled : ∀ parts : List Value,
      (if (parts.map (rename ρ)).length = length then
        (do return vector (← (parts.map (rename ρ)).mapM (convert kind)) : Run Value)
      else throw (RunCause.vectorLength length (parts.map (rename ρ)).length).unplaced) =
      rename ρ <$> (if parts.length = length then
        (do return vector (← parts.mapM (convert kind)))
      else throw (RunCause.vectorLength length parts.length).unplaced) := by
    intro parts
    rw [List.length_map, mapM_map_natural (natural_convert kind)]
    split
    · cases parts.mapM (convert kind) <;> simp [Functor.map, Except.map, bind, Except.bind, pure, Except.pure]
    · rfl
  unfold constructVector
  rw [flatMap_components_map]
  rcases args.flatMap components with _ | ⟨v, _ | ⟨w, rest⟩⟩
  · exact settled []
  · simp only [List.map_cons, List.map_nil]
    rw [← List.map_replicate]
    exact settled (List.replicate length v)
  · exact settled (v :: w :: rest)

theorem natural_constructFields (members : List MemberInfo) (args : List Value) :
    constructFields members (args.map (rename ρ)) =
      List.map (fun f => (f.1, f.2.rename ρ)) <$> constructFields members args := by
  induction members generalizing args with
  | nil => simp [constructFields]
  | cons m rest ih =>
    cases args with
    | nil => simp [constructFields]
    | cons v vs =>
      rw [List.map_cons, constructFields, constructFields, natural_coerceTo, ih]
      cases v.coerceTo m.type with
      | error e => rfl
      | ok u => cases constructFields rest vs <;> rfl

theorem natural_constructShape (t : TypeInfo) (inferred : Bool) (args : List Value) :
    constructShape t inferred (args.map (rename ρ)) = rename ρ <$> constructShape t inferred args := by
  unfold constructShape
  split
  · rename_i kind _
    rcases args with _ | ⟨v, _ | ⟨w, rest⟩⟩
    · rfl
    · simp only [List.map_cons, List.map_nil, isScalar_rename, typeName_rename, natural_convert kind v]
      split <;> rfl
    · simp [map_throw]
  · split
    · simp
    · rw [mapM_map_natural (natural_coerceTo _)]
      cases args.mapM (coerceTo _) <;> simp
  · rename_i members _ _ _
    rw [List.length_map, natural_constructFields]
    split
    · cases constructFields members args <;> simp
    · rfl
  · rfl

theorem natural_construct (t : TypeInfo) (inferred : Bool) (args : List Value) :
    construct t inferred (args.map (rename ρ)) = rename ρ <$> construct t inferred args := by
  cases args with
  | nil => simp [construct]
  | cons first rest =>
    unfold construct
    simp only [scalarKind?_rename, List.map_cons]
    split
    · rw [← List.map_cons, natural_constructMatrix]
    · split
      · rw [← List.map_cons, natural_constructVector]
      · rw [← List.map_cons, natural_constructShape]

/-! ## Operators -/

/-- A function of two values that treats pointers and textures as names only. -/
def Natural₂ (ρ : Renaming) (f : Value → Value → Run Value) : Prop :=
  ∀ v w, f (v.rename ρ) (w.rename ρ) = rename ρ <$> f v w

theorem promote_rename (l r : Value) : promote (l.rename ρ) (r.rename ρ) = promote l r := by
  cases l <;> cases r <;>
    simp [promote, promoteSingles, promoteUnsigned, promoteSigned, number, unsigned, signed, integer,
      expected]

theorem plain_compared (op : BinaryOp) (order : Option Ordering) :
    rename ρ <$> compared op order = compared op order := by
  unfold compared
  split <;> simp [map_throw]

theorem plain_boolBinary (op : BinaryOp) (a b : Bool) :
    rename ρ <$> boolBinary op a b = boolBinary op a b := by
  unfold boolBinary
  split <;> simp [map_throw]

theorem plain_signedBinary (op : BinaryOp) (a b : Int32) :
    rename ρ <$> signedBinary op a b = signedBinary op a b := by
  unfold signedBinary
  split <;> simp [plain_compared]

theorem plain_unsignedBinary (op : BinaryOp) (a b : UInt32) :
    rename ρ <$> unsignedBinary op a b = unsignedBinary op a b := by
  unfold unsignedBinary
  split <;> simp [plain_compared]

theorem plain_singleBinary (op : BinaryOp) (a b : Single) :
    rename ρ <$> singleBinary op a b = singleBinary op a b := by
  unfold singleBinary
  split <;> simp [plain_compared, map_throw]

theorem natural_shift (left : Bool) (amount : UInt32) : Natural ρ fun v => shift left v amount := by
  intro v
  cases v <;> simp [shift, map_throw]

theorem natural_scalarBinary (op : BinaryOp) : Natural₂ ρ (scalarBinary op) := by
  intro l r
  unfold scalarBinary
  rw [unsigned_rename, promote_rename]
  split
  · cases r.unsigned with
    | error e => rfl
    | ok n => exact natural_shift true _ l
  · cases r.unsigned with
    | error e => rfl
    | ok n => exact natural_shift false _ l
  · cases promote l r with
    | error e => rfl
    | ok pair =>
      cases pair with
      | bools a b => exact (plain_boolBinary op a b).symm
      | signed a b => exact (plain_signedBinary op a b).symm
      | unsigned a b => exact (plain_unsignedBinary op a b).symm
      | singles a b => exact (plain_singleBinary op a b).symm

@[simp] theorem rename_eq_matrix {v : Value} {m : List (List Single)} :
    v.rename ρ = matrix m ↔ v = matrix m := by
  cases v <;> simp

@[simp] theorem rename_eq_bool {v : Value} {b : Bool} : v.rename ρ = .bool b ↔ v = .bool b := by
  cases v <;> simp

@[simp] theorem rename_eq_vector {v : Value} {items : List Value} :
    v.rename ρ = vector items ↔ ∃ old, v = vector old ∧ old.map (rename ρ) = items := by
  cases v <;> simp

theorem notForBoth_rename (op : BinaryOp) (l r : Value) :
    notForBoth op (l.rename ρ) (r.rename ρ) = notForBoth op l r := by
  simp [notForBoth]

theorem plain_map {α : Type} {g : α → Value} (hg : ∀ a, (g a).rename ρ = g a) (x : Run α) :
    rename ρ <$> (g <$> x) = g <$> x := by
  cases x with
  | error e => rfl
  | ok a => exact congrArg Except.ok (hg a)

theorem plain_bind {α : Type} {g : α → Run Value} (hg : ∀ a, rename ρ <$> g a = g a) (x : Run α) :
    rename ρ <$> (x >>= g) = x >>= g := by
  cases x with
  | error e => rfl
  | ok a => exact hg a

/-- Nothing that comes out of a matrix has a name in it. -/
theorem plain_matrixBinary (op : BinaryOp) (l r : Value) :
    rename ρ <$> matrixBinary op l r = matrixBinary op l r := by
  unfold matrixBinary
  split
  · refine plain_bind (fun v => ?_) _
    split
    · rfl
    · simp
  · refine plain_bind (fun v => plain_bind (fun items => ?_) _) _
    simp
  · split <;> simp [map_throw]
  · split
    · exact plain_map (fun _ => rename_matrix _) _
    · rfl
  · split
    · exact plain_map (fun _ => rename_matrix _) _
    · rfl
  · split <;> simp [map_throw]
  · split <;> simp [map_throw]
  · simp
  · simp
  · rfl

theorem matrixBinary_rename_right (op : BinaryOp) (m : List (List Single)) (r : Value) :
    matrixBinary op (matrix m) (r.rename ρ) = matrixBinary op (matrix m) r := by
  have hnot := notForBoth_rename (ρ := ρ) op (matrix m) r
  rw [rename_matrix] at hnot
  cases r with
  | vector v =>
    rw [rename_vector] at hnot ⊢
    cases op <;> simp only [matrixBinary, mapM_number_map, hnot]
  | matrix b => rw [rename_matrix]
  | array _ | struct _ _ | pointer _ | texture _ =>
    simp only [rename_array, rename_struct, rename_pointer, rename_texture] at hnot ⊢
    cases op <;> simp [matrixBinary, isScalar, hnot]
  | void | bool _ | i32 _ | u32 _ | f32 _ | sampler => simp

theorem matrixBinary_rename_left (op : BinaryOp) (m : List (List Single)) (l : Value) :
    matrixBinary op (l.rename ρ) (matrix m) = matrixBinary op l (matrix m) := by
  have hnot := notForBoth_rename (ρ := ρ) op l (matrix m)
  rw [rename_matrix] at hnot
  cases l with
  | vector v =>
    rw [rename_vector] at hnot ⊢
    cases op <;> simp only [matrixBinary, mapM_number_map, hnot]
  | matrix b => rw [rename_matrix]
  | array _ | struct _ _ | pointer _ | texture _ =>
    simp only [rename_array, rename_struct, rename_pointer, rename_texture] at hnot ⊢
    cases op <;> simp [matrixBinary, isScalar, hnot]
  | void | bool _ | i32 _ | u32 _ | f32 _ | sampler => simp

theorem natural_matrixBinary (op : BinaryOp) {l r : Value}
    (h : (∃ m, l = matrix m) ∨ ∃ m, r = matrix m) :
    matrixBinary op (l.rename ρ) (r.rename ρ) = rename ρ <$> matrixBinary op l r := by
  rw [plain_matrixBinary]
  obtain ⟨m, rfl⟩ | ⟨m, rfl⟩ := h
  · rw [rename_matrix, matrixBinary_rename_right]
  · rw [rename_matrix, matrixBinary_rename_left]

theorem zipComponents_vector_left (f : Value → Value → Run Value) (a : List Value) {s : Value}
    (h : ∀ b, s ≠ vector b) : zipComponents f (vector a) s = vector <$> a.mapM fun x => f x s := by
  unfold zipComponents
  split <;> simp_all

theorem zipComponents_vector_right (f : Value → Value → Run Value) (b : List Value) {s : Value}
    (h : ∀ a, s ≠ vector a) : zipComponents f s (vector b) = vector <$> b.mapM fun y => f s y := by
  unfold zipComponents
  split <;> simp_all

theorem zipComponents_others (f : Value → Value → Run Value) {l r : Value} (hl : ∀ a, l ≠ vector a)
    (hr : ∀ b, r ≠ vector b) : zipComponents f l r = f l r := by
  unfold zipComponents
  split <;> simp_all

theorem rename_ne_vector {v : Value} (h : ∀ a, v ≠ vector a) : ∀ a, v.rename ρ ≠ vector a := by
  intro a e
  obtain ⟨old, hv, -⟩ := rename_eq_vector.mp e
  exact h old hv

theorem vector_map_natural (x : Run (List Value)) :
    vector <$> (List.map (rename ρ) <$> x) = rename ρ <$> (vector <$> x) := by
  cases x <;> simp

theorem natural_zipComponents {f : Value → Value → Run Value} (hf : Natural₂ ρ f) :
    Natural₂ ρ (zipComponents f) := by
  intro l r
  by_cases hl : ∃ a, l = vector a
  · obtain ⟨a, rfl⟩ := hl
    by_cases hr : ∃ b, r = vector b
    · obtain ⟨b, rfl⟩ := hr
      simp only [zipComponents, rename_vector, List.length_map]
      split
      · rw [List.zip_map, mapM_map_natural (fun p => hf p.1 p.2), vector_map_natural]
      · rfl
    · rw [not_exists] at hr
      rw [zipComponents_vector_left f a hr, rename_vector,
        zipComponents_vector_left f _ (rename_ne_vector hr), mapM_map_natural (fun x => hf x r),
        vector_map_natural]
  · rw [not_exists] at hl
    by_cases hr : ∃ b, r = vector b
    · obtain ⟨b, rfl⟩ := hr
      rw [zipComponents_vector_right f b hl, rename_vector,
        zipComponents_vector_right f _ (rename_ne_vector hl), mapM_map_natural (fun y => hf l y),
        vector_map_natural]
    · rw [not_exists] at hr
      rw [zipComponents_others f hl hr,
        zipComponents_others f (rename_ne_vector hl) (rename_ne_vector hr), hf]

theorem binary_eq_matrixBinary (op : BinaryOp) {l r : Value}
    (h : (∃ m, l = matrix m) ∨ ∃ m, r = matrix m) : binary op l r = matrixBinary op l r := by
  unfold binary
  split
  · rfl
  · rfl
  · rename_i hl hr
    obtain ⟨m, rfl⟩ | ⟨m, rfl⟩ := h
    · exact absurd rfl (hl m)
    · exact absurd rfl (hr m)

theorem binary_eq_zipComponents (op : BinaryOp) {l r : Value} (hl : ∀ m, l ≠ matrix m)
    (hr : ∀ m, r ≠ matrix m) : binary op l r = zipComponents (scalarBinary op) l r := by
  unfold binary
  split
  · exact absurd rfl (hl _)
  · exact absurd rfl (hr _)
  · rfl

theorem natural_binary (op : BinaryOp) : Natural₂ ρ (binary op) := by
  intro l r
  by_cases h : (∃ m, l = matrix m) ∨ ∃ m, r = matrix m
  · rw [binary_eq_matrixBinary op h, ← natural_matrixBinary op h]
    apply binary_eq_matrixBinary
    simpa using h
  · rw [not_or, not_exists, not_exists] at h
    rw [binary_eq_zipComponents op h.1 h.2, ← natural_zipComponents (natural_scalarBinary op) l r]
    exact binary_eq_zipComponents op (by simpa using h.1) (by simpa using h.2)

theorem natural_scalarUnary (op : UnaryOp) : Natural ρ (scalarUnary op) := by
  intro v
  cases op <;> cases v <;> simp [scalarUnary, map_throw]

theorem natural_unary (op : UnaryOp) : Natural ρ (unary op) := by
  intro v
  have h := (natural_scalarUnary (ρ := ρ) op).mapComponents v
  cases op <;> cases v <;> simp only [unary] <;> first | exact h | rfl

/-! ## Parts -/

theorem natural_element (items : List Value) (i : Int) :
    element (items.map (rename ρ)) i = rename ρ <$> element items i := by
  unfold element
  rw [List.getElem?_map, List.length_map]
  by_cases hi : i < 0
  · simp only [hi, if_true]
    rfl
  · simp only [hi, if_false]
    cases items[i.toNat]? <;> rfl

theorem natural_mapM_bind {α : Type} {f f' : α → Run Value} {k k' : List Value → Run Value}
    (hf : ∀ a, f' a = rename ρ <$> f a) (hk : ∀ found, k' (found.map (rename ρ)) = rename ρ <$> k found)
    (xs : List α) : (xs.mapM f' >>= k') = rename ρ <$> (xs.mapM f >>= k) := by
  have h := mapM_map_natural (g := id) hf xs
  rw [List.map_id] at h
  rw [h]
  cases xs.mapM f with
  | error e => rfl
  | ok found => exact hk found

theorem natural_pick (swizzle : String) (items : List Value) :
    pick swizzle (items.map (rename ρ)) = rename ρ <$> pick swizzle items := by
  unfold pick
  cases swizzleIndices? swizzle with
  | none => rfl
  | some indices =>
    refine natural_mapM_bind (fun i => ?_) (fun found => ?_) indices
    · rw [List.getElem?_map]
      cases items[i]? <;> rfl
    · rcases found with _ | ⟨v, _ | ⟨w, rest⟩⟩ <;> simp

theorem find?_map_rename (fields : List (String × Value)) (name : String) :
    Table.find? (fields.map fun f => (f.1, f.2.rename ρ)) name =
      (Table.find? fields name).map (rename ρ) := by
  induction fields with
  | nil => rfl
  | cons f rest ih =>
    unfold Table.find? at ih ⊢
    rw [List.map_cons, List.lookup_cons, List.lookup_cons]
    cases name == f.1
    · exact ih
    · rfl

theorem insert_map_rename (fields : List (String × Value)) (name : String) (v : Value) :
    Table.insert (fields.map fun f => (f.1, f.2.rename ρ)) name (v.rename ρ) =
      (Table.insert fields name v).map fun f => (f.1, f.2.rename ρ) := by
  induction fields with
  | nil => rfl
  | cons f rest ih =>
    simp only [Table.insert, List.map_cons]
    split
    · rfl
    · rw [ih, List.map_cons]

theorem natural_ofSingles (x : Run (List Single)) :
    ofSingles <$> x = rename ρ <$> (ofSingles <$> x) := by
  cases x <;> simp

theorem natural_part (a : Access) : Natural ρ fun v => v.part a := by
  intro v
  cases v with
  | struct name fields =>
    cases a with
    | index i => simp [part, map_throw]
    | member m =>
      simp only [part, rename_struct, find?_map_rename]
      cases Table.find? fields m <;> rfl
  | vector items =>
    cases a with
    | index i => simp only [part, rename_vector, natural_element]
    | member m => simp only [part, rename_vector, natural_pick]
  | array items =>
    cases a with
    | index i => simp only [part, rename_array, natural_element]
    | member m => simp [part, map_throw]
  | matrix columns =>
    cases a with
    | index i => simp only [part, rename_matrix, ← natural_ofSingles]
    | member m => simp [part, map_throw]
  | _ => simp [part, map_throw]

theorem natural_atPath (path : List Access) : Natural ρ fun v => v.atPath path := by
  intro v
  simp only [atPath]
  induction path generalizing v with
  | nil => rfl
  | cons a rest ih =>
    have h := natural_part (ρ := ρ) a v
    dsimp only at h
    rw [List.foldlM_cons, List.foldlM_cons, h]
    cases v.part a with
    | error e => rfl
    | ok u => exact ih u

theorem natural_slot (a : Access) : Natural ρ fun v => v.slot a := by
  intro v
  cases v with
  | struct name fields =>
    cases a with
    | index i => simp [slot, map_throw]
    | member m =>
      simp only [slot, rename_struct, find?_map_rename]
      cases Table.find? fields m <;> rfl
  | vector items =>
    cases a with
    | index i => simp only [slot, rename_vector, natural_element]
    | member m =>
      simp only [slot, rename_vector]
      split
      · rw [List.getElem?_map]
        rename_i i _
        cases items[i]? <;> rfl
      · rfl
  | array items =>
    cases a with
    | index i => simp only [slot, rename_array, natural_element]
    | member m => simp [slot, map_throw]
  | _ => simp [slot, map_throw]

theorem rename_withSlot (v new : Value) (a : Access) :
    (v.withSlot a new).rename ρ = (v.rename ρ).withSlot a (new.rename ρ) := by
  cases v with
  | struct name fields =>
    cases a with
    | index i => simp [withSlot]
    | member m => simp only [withSlot, rename_struct, insert_map_rename]
  | vector items =>
    cases a with
    | index i => simp only [withSlot, rename_vector, List.map_set]
    | member m =>
      simp only [withSlot, rename_vector]
      split <;> simp only [rename_vector, List.map_set]
  | array items =>
    cases a with
    | index i => simp only [withSlot, rename_array, List.map_set]
    | member m => simp [withSlot]
  | _ => simp [withSlot]

/-! ## Assigning -/

/-- Two changes that differ in names only: the second does to the renamed state what the first does
to the state. -/
def Alike {σ : Type} (g : σ → σ) (c c' : Change σ Unit) : Prop :=
  ∀ s, c'.apply (g s) = ((c.apply s).1, g (c.apply s).2)

theorem alike_throw {σ : Type} (g : σ → σ) (e : RunError) : Alike g (throw e) (throw e) :=
  fun _ => rfl

theorem alike_set {σ : Type} {g : σ → σ} {x x' : Run σ} (h : x' = g <$> x) :
    Alike g (do set (← x)) (do set (← x')) := by
  intro s
  subst h
  cases x <;> rfl

/-- A change that reads the state first is one for every state that it may find. -/
theorem Alike.reading {σ : Type} {g : σ → σ} {f f' : σ → Change σ Unit}
    (h : ∀ s, Alike g (f s) (f' (g s))) : Alike g (get >>= f) (get >>= f') := fun s => h s s

theorem Alike.bind {σ : Type} {g : σ → σ} {c c' : Change σ Unit} {d d' : Unit → Change σ Unit}
    (hc : Alike g c c') (hd : Alike g (d ()) (d' ())) : Alike g (c >>= d) (c' >>= d') := by
  intro s
  have h := hc s
  simp only [Change.apply, ExceptT.run_bind, StateT.run_bind] at h ⊢
  rw [h]
  cases hr : ((ExceptT.run c).run s) with
  | mk outcome t =>
    cases outcome with
    | error e => rfl
    | ok u => exact hd t

theorem alike_lift_bind {σ α : Type} {g : σ → σ} {x x' : Run α} {φ : α → α}
    {f f' : α → Change σ Unit} (hx : x' = φ <$> x) (h : ∀ a, Alike g (f a) (f' (φ a))) :
    Alike g (liftM x >>= f) (liftM x' >>= f') := by
  subst hx
  intro s
  cases x with
  | error e => rfl
  | ok a => exact h a s

theorem alike_onPart {σ τ : Type} {g : σ → σ} {φ : τ → τ} {part : τ} {put put' : τ → σ}
    {c c' : Change τ Unit} (hc : Alike φ c c') (hp : ∀ t, put' (φ t) = g (put t)) :
    Alike g (Change.onPart part put c) (Change.onPart (φ part) put' c') := by
  intro s
  have h := hc part
  show (((c'.apply (φ part)).1, put' (c'.apply (φ part)).2) : Run Unit × σ) =
    ((c.apply part).1, g (put (c.apply part).2))
  rw [h, hp]

theorem alike_replace (new : Value) : Alike (rename ρ) (replace new) (replace (new.rename ρ)) := by
  unfold replace
  refine Alike.reading fun old => ?_
  exact alike_set (natural_coerceLike old new)

theorem alike_within {c c' : Change Value Unit} (a : Access) (h : Alike (rename ρ) c c') :
    Alike (rename ρ) (within a c) (within a c') := by
  unfold within
  refine Alike.reading fun v => ?_
  refine alike_lift_bind (natural_slot a v) fun old => ?_
  exact alike_onPart h fun t => (rename_withSlot v t a).symm

theorem alike_assignEach (swizzle : String) (parts : List (Nat × Value)) :
    Alike (List.map (rename ρ)) (assignEach swizzle parts)
      (assignEach swizzle (parts.map fun p => (p.1, p.2.rename ρ))) := by
  induction parts with
  | nil => exact fun _ => rfl
  | cons p rest ih =>
    rw [List.map_cons, assignEach, assignEach]
    refine Alike.reading fun items => ?_
    rw [List.getElem?_map]
    cases items[p.1]? with
    | none => exact alike_throw _ _
    | some old =>
      refine alike_lift_bind (natural_coerceLike old p.2) fun new => ?_
      refine Alike.bind (fun s => ?_) ih
      show ((.ok (), (items.map (rename ρ)).set p.1 (new.rename ρ)) : Run Unit × List Value) =
        (.ok (), (items.set p.1 new).map (rename ρ))
      rw [List.map_set]

theorem alike_assignSwizzle (swizzle : String) (new : Value) :
    Alike (List.map (rename ρ)) (assignSwizzle swizzle new)
      (assignSwizzle swizzle (new.rename ρ)) := by
  unfold assignSwizzle
  cases swizzleIndices? swizzle with
  | none => exact alike_throw _ _
  | some indices =>
    simp only [components_rename, List.length_map]
    split
    · rw [List.zip_map_right]
      exact alike_assignEach swizzle (indices.zip new.components)
    · exact alike_throw _ _

theorem alike_assignPart (a : Access) (new : Value) :
    Alike (rename ρ) (assignPart a new) (assignPart a (new.rename ρ)) := by
  unfold assignPart
  refine Alike.reading fun v => ?_
  have other := alike_within a (alike_replace (ρ := ρ) new)
  cases v with
  | vector items =>
    rw [rename_vector]
    cases a with
    | member swizzle =>
      exact alike_onPart (alike_assignSwizzle swizzle new) fun t => (rename_vector t).symm
    | index i => exact other
  | matrix columns =>
    rw [rename_matrix]
    cases a with
    | member m => exact other
    | index i =>
      intro s
      unfold assignColumn
      rw [numbers_rename]
      rfl
  | void | bool _ | i32 _ | u32 _ | f32 _ | array _ | struct _ _ | pointer _ | texture _ | sampler =>
    simp only [rename_void, rename_bool, rename_i32, rename_u32, rename_f32, rename_array,
      rename_struct, rename_pointer, rename_texture, rename_sampler]
    exact other

theorem alike_assignPath (path : List Access) (new : Value) :
    Alike (rename ρ) (assignPath path new) (assignPath path (new.rename ρ)) := by
  induction path with
  | nil => exact alike_replace new
  | cons a rest ih =>
    cases rest with
    | nil => exact alike_assignPart a new
    | cons b more => exact alike_within a ih

end Value

end Wgsl
