import Mathlib.Order.Interval.Set.Basic
import Wgsl.Proofs.Memory.Reading
import Wgsl.Proofs.Value.Assigning
import Wgsl.Value.Construct
import Wgsl.Value.Operator

/-! # Rectangular matrices

The columns of a matrix are lists, and nothing in their type says that they are of one length. That
they are is kept up by whatever builds a matrix.

* `Value.Rectangle`: two to four columns, all of one length from two to four.
* `Value.Rectangular`: every matrix in a value is such a rectangle, however deep it lies.
* `Run.Ensures`: what holds of everything that a computation gives.
* `Value.ensures_binary`, `Value.ensures_construct`, `Value.rectangular_assignPath`: operators,
  constructors and assignments make rectangles of rectangles, also where types do not fit.
-/

namespace Wgsl
set_option autoImplicit false

open Number (Single)

/-! ## What a computation ensures -/

namespace Run

variable {α β : Type} {P : α → Prop} {Q : β → Prop}

/-- Whatever the computation gives has the property. -/
def Ensures (P : α → Prop) (r : Run α) : Prop := ∀ a, r = .ok a → P a

theorem ensures_pure {a : α} (h : P a) : Ensures P (pure a) := fun _ hb => Except.ok.inj hb ▸ h

theorem ensures_throw (e : RunError) : Ensures P (throw e) := nofun

theorem ensures_all (r : Run α) : Ensures (fun _ => True) r := fun _ _ => trivial

theorem Ensures.bind {r : Run α} {f : α → Run β} (hr : Ensures P r) (hf : ∀ a, P a → Ensures Q (f a)) :
    Ensures Q (r >>= f) := by
  intro b hb
  obtain ⟨a, ha, hb⟩ := bind_ok hb
  exact hf a (hr a ha) b hb

theorem Ensures.map {r : Run α} {f : α → β} (hr : Ensures P r) (hf : ∀ a, P a → Q (f a)) :
    Ensures Q (f <$> r) := by
  intro b hb
  obtain ⟨a, ha, rfl⟩ := map_ok hb
  exact hf a (hr a ha)

/-- After a part of which nothing need be known. -/
theorem ensures_next (r : Run α) {f : α → Run β} (hf : ∀ a, Ensures Q (f a)) : Ensures Q (r >>= f) :=
  (ensures_all r).bind fun a _ => hf a

theorem ensures_mapM {f : α → Run β} {as : List α} (h : ∀ a ∈ as, Ensures Q (f a)) :
    Ensures (fun bs => bs.length = as.length ∧ ∀ b ∈ bs, Q b) (as.mapM f) := by
  induction as with
  | nil => exact ensures_pure ⟨rfl, nofun⟩
  | cons a as ih =>
    rw [List.mapM_cons]
    refine (h a List.mem_cons_self).bind fun b hb => ?_
    refine (ih fun c hc => h c (List.mem_cons_of_mem _ hc)).bind fun bs hbs => ?_
    exact ensures_pure ⟨congrArg Nat.succ hbs.1, List.forall_mem_cons.2 ⟨hb, hbs.2⟩⟩

theorem ensures_foldlM {f : β → α → Run β} {as : List α} {b : β} (hb : Q b)
    (hf : ∀ b a, Q b → a ∈ as → Ensures Q (f b a)) : Ensures Q (as.foldlM f b) := by
  induction as generalizing b with
  | nil => exact ensures_pure hb
  | cons a as ih =>
    rw [List.foldlM_cons]
    refine (hf b a hb List.mem_cons_self).bind fun c hc => ?_
    exact ih hc fun c d hc hd => hf c d hc (List.mem_cons_of_mem _ hd)

theorem ensures_values {f : Nat → Run β} {count : Nat} (h : ∀ i, Ensures Q (f i)) :
    Ensures (fun bs => bs.length = count ∧ ∀ b ∈ bs, Q b) (values count f) := by
  rw [values_eq_mapM]
  have mapped : Ensures (fun bs => bs.length = (List.range count).length ∧ ∀ b ∈ bs, Q b)
      ((List.range count).mapM f) := ensures_mapM fun i _ => h i
  rwa [List.length_range] at mapped

end Run

open Run (Ensures ensures_pure ensures_throw ensures_all ensures_next ensures_mapM)

/-! ## Rectangles -/

namespace Value

/-- Two to four columns, all of one length from two to four. -/
structure Rectangle (columns : List (List Single)) : Prop where
  wide : columns.length ∈ Set.Icc 2 4
  high : rowCount columns ∈ Set.Icc 2 4
  even : ∀ column ∈ columns, column.length = rowCount columns

theorem rectangle_iff {columns : List (List Single)} : Rectangle columns ↔
    columns.length ∈ Set.Icc 2 4 ∧ rowCount columns ∈ Set.Icc 2 4 ∧
      ∀ column ∈ columns, column.length = rowCount columns :=
  ⟨fun h => ⟨h.wide, h.high, h.even⟩, fun h => ⟨h.1, h.2.1, h.2.2⟩⟩

instance (columns : List (List Single)) : Decidable (Rectangle columns) :=
  decidable_of_iff' _ rectangle_iff

mutual

/-- Every matrix in the value is a rectangle. -/
def Rectangular : Value → Prop
  | vector items => AllRectangular items
  | matrix columns => Rectangle columns
  | array items => AllRectangular items
  | struct _ fields => FieldsRectangular fields
  | _ => True

def AllRectangular : List Value → Prop
  | [] => True
  | v :: rest => Rectangular v ∧ AllRectangular rest

def FieldsRectangular : List (String × Value) → Prop
  | [] => True
  | (_, v) :: rest => Rectangular v ∧ FieldsRectangular rest

end

mutual

instance decidableRectangular : (v : Value) → Decidable v.Rectangular
  | vector items => decidableAllRectangular items
  | matrix columns => inferInstanceAs (Decidable (Rectangle columns))
  | array items => decidableAllRectangular items
  | struct _ fields => decidableFieldsRectangular fields
  | void | bool _ | i32 _ | u32 _ | f32 _ | pointer _ | texture _ | sampler => .isTrue trivial

instance decidableAllRectangular : (vs : List Value) → Decidable (AllRectangular vs)
  | [] => .isTrue trivial
  | v :: rest =>
    have := decidableRectangular v
    have := decidableAllRectangular rest
    inferInstanceAs (Decidable (v.Rectangular ∧ AllRectangular rest))

instance decidableFieldsRectangular :
    (fields : List (String × Value)) → Decidable (FieldsRectangular fields)
  | [] => .isTrue trivial
  | (_, v) :: rest =>
    have := decidableRectangular v
    have := decidableFieldsRectangular rest
    inferInstanceAs (Decidable (v.Rectangular ∧ FieldsRectangular rest))

end

variable {v w : Value} {items : List Value} {fields : List (String × Value)}
  {columns a b : List (List Single)}

@[simp] theorem rectangular_vector : (vector items).Rectangular ↔ ∀ v ∈ items, v.Rectangular := by
  change AllRectangular items ↔ _
  induction items with
  | nil => exact iff_of_true trivial nofun
  | cons v rest ih => rw [List.forall_mem_cons, ← ih, AllRectangular]

@[simp] theorem rectangular_array : (array items).Rectangular ↔ ∀ v ∈ items, v.Rectangular :=
  rectangular_vector

@[simp] theorem rectangular_struct {name : String} :
    (struct name fields).Rectangular ↔ ∀ field ∈ fields, field.2.Rectangular := by
  change FieldsRectangular fields ↔ _
  induction fields with
  | nil => exact iff_of_true trivial nofun
  | cons field rest ih => rw [List.forall_mem_cons, ← ih, FieldsRectangular]

theorem rectangular_f32 (x : Single) : (f32 x).Rectangular := trivial

theorem rectangular_ofSingles (xs : List Single) : (ofSingles xs).Rectangular := by
  refine rectangular_vector.2 fun v hv => ?_
  obtain ⟨x, -, rfl⟩ := List.mem_map.1 hv
  exact rectangular_f32 x

theorem Rectangular.components (h : v.Rectangular) : ∀ c ∈ v.components, c.Rectangular := by
  cases v with
  | vector items => exact rectangular_vector.1 h
  | matrix columns => exact rectangular_vector.1 (rectangular_ofSingles columns.flatten)
  | _ => exact List.forall_mem_singleton.2 h

theorem ensures_vector {r : Run (List Value)} {n : Nat}
    (h : Ensures (fun vs => vs.length = n ∧ ∀ v ∈ vs, v.Rectangular) r) :
    Ensures Rectangular (vector <$> r) :=
  h.map fun _ hvs => rectangular_vector.2 hvs.2

/-- A function that makes rectangles of everything, on every component. -/
theorem ensures_mapComponents {f : Value → Run Value} (hf : ∀ c, Ensures Rectangular (f c)) (v : Value) :
    Ensures Rectangular (mapComponents f v) := by
  unfold mapComponents
  split
  · exact ensures_vector (ensures_mapM fun c _ => hf c)
  · exact hf v

/-- The function gets pairs of components, or the operands themselves. -/
theorem ensures_zipComponents {f : Value → Value → Run Value} (hf : ∀ x y, Ensures Rectangular (f x y))
    (l r : Value) : Ensures Rectangular (zipComponents f l r) := by
  unfold zipComponents
  split
  · split
    · exact ensures_vector (ensures_mapM fun _ _ => hf _ _)
    · exact ensures_throw _
  · exact ensures_vector (ensures_mapM fun _ _ => hf _ _)
  · exact ensures_vector (ensures_mapM fun _ _ => hf _ _)
  · exact hf l r

/-! ## Conversions and zero values -/

theorem ensures_convert (kind : ScalarKind) (v : Value) : Ensures Rectangular (convert kind v) := by
  refine ensures_mapComponents (fun c => ?_) v
  cases kind <;> exact (ensures_all _).map fun _ _ => trivial

theorem ensures_coerceTo (t : TypeInfo) (h : v.Rectangular) : Ensures Rectangular (coerceTo t v) := by
  unfold coerceTo
  repeat' split
  · exact ensures_pure h
  · exact ensures_convert _ v
  · exact ensures_throw _
  · refine (ensures_convert _ v).bind fun c hc => ensures_pure (rectangular_vector.2 fun u hu => ?_)
    exact List.eq_of_mem_replicate hu ▸ hc
  · exact ensures_pure h
  · exact ensures_convert _ v
  · exact ensures_pure h
  · exact ensures_pure h

theorem ensures_inKindOf (old : Value) (h : v.Rectangular) : Ensures Rectangular (inKindOf old v) := by
  unfold inKindOf
  repeat' split
  · exact ensures_pure h
  · exact ensures_convert _ v
  · exact ensures_pure h

theorem ensures_coerceLike (old : Value) (h : v.Rectangular) :
    Ensures Rectangular (coerceLike old v) := by
  unfold coerceLike
  repeat' split
  · exact ensures_inKindOf old h
  · exact ensures_throw _
  · exact ensures_inKindOf old h
  · exact ensures_pure h
  · exact ensures_pure h

theorem rectangular_zero (kind : ScalarKind) : (zero kind).Rectangular := by
  cases kind <;> trivial

theorem rectangular_ofDouble (x : Float) (kind : ScalarKind) : (ofDouble x kind).Rectangular := by
  cases kind <;> trivial

theorem matrixShape_bounds {base : String} {shape : Nat × Nat} (h : matrixShape? base = some shape) :
    shape.1 ∈ Set.Icc 2 4 ∧ shape.2 ∈ Set.Icc 2 4 := by
  unfold matrixShape? at h
  split at h <;> cases h <;> decide

theorem rectangle_of_length {n height : Nat} (hn : n ∈ Set.Icc 2 4) (hh : height ∈ Set.Icc 2 4)
    (hlength : columns.length = n) (h : ∀ column ∈ columns, column.length = height) :
    Rectangle columns := by
  have first : rowCount columns = height := by
    cases columns with
    | nil =>
      rw [← hlength] at hn
      exact absurd hn.1 (Nat.not_succ_le_zero 1)
    | cons column rest => exact h column List.mem_cons_self
  exact ⟨hlength ▸ hn, first ▸ hh, fun column hc => (h column hc).trans first.symm⟩

theorem rectangle_of_shape {base : String} {n height : Nat} (hs : matrixShape? base = some (n, height))
    (hlength : columns.length = n) (h : ∀ column ∈ columns, column.length = height) :
    Rectangle columns :=
  rectangle_of_length (matrixShape_bounds hs).1 (matrixShape_bounds hs).2 hlength h

theorem rectangular_zeroOfTemplate (base : String) (kind : ScalarKind) :
    (zeroOfTemplate base kind).Rectangular := by
  unfold zeroOfTemplate
  repeat' split
  · rename_i hs
    refine rectangle_of_shape hs List.length_replicate fun column hc => ?_
    rw [List.eq_of_mem_replicate hc, List.length_replicate]
  · refine rectangular_vector.2 fun u hu => ?_
    exact List.eq_of_mem_replicate hu ▸ rectangular_zero kind
  · exact rectangular_zero kind
  · trivial

mutual

theorem rectangular_zeroOf : ∀ t : TypeInfo, (zeroOf t).Rectangular
  | .mk name _ _ _ shape => by
    rw [zeroOf]
    exact rectangular_zeroOfShape name shape

theorem rectangular_zeroOfShape (name : String) :
    ∀ shape : TypeShape, (zeroOfShape name shape).Rectangular
  | .scalar kind => by
    rw [zeroOfShape]
    exact rectangular_zero kind
  | .handle => by
    rw [zeroOfShape]
    unfold zeroOfHandle
    split <;> trivial
  | .array element count stride => by
    rw [zeroOfShape]
    refine rectangular_array.2 fun u hu => ?_
    exact List.eq_of_mem_replicate hu ▸ rectangular_zeroOf element
  | .struct tag members open_ extra => by
    rw [zeroOfShape]
    exact rectangular_struct.2 (rectangular_zeroFields members)
  | .template base param access storage => by
    rw [zeroOfShape]
    exact rectangular_zeroOfTemplate base _

theorem rectangular_zeroFields :
    ∀ members : List MemberInfo, ∀ field ∈ zeroFields members, field.2.Rectangular
  | [] => by
    rw [zeroFields]
    exact nofun
  | .mk name type offset size align :: rest => by
    rw [zeroFields]
    exact List.forall_mem_cons.2 ⟨rectangular_zeroOf type, rectangular_zeroFields rest⟩

end

/-! ## Operators -/

theorem ensures_compared (op : BinaryOp) (order : Option Ordering) :
    Ensures Rectangular (compared op order) := by
  unfold compared
  split <;> first | exact ensures_throw _ | exact ensures_pure trivial

theorem ensures_paired (op : BinaryOp) (l r : Value) :
    Ensures Rectangular (promote l r >>= fun pair => match pair with
      | .bools a b => boolBinary op a b
      | .signed a b => signedBinary op a b
      | .unsigned a b => unsignedBinary op a b
      | .singles a b => singleBinary op a b) := by
  refine ensures_next _ fun pair => ?_
  cases pair <;> cases op <;>
    first | exact ensures_throw _ | exact ensures_compared _ _ | exact ensures_pure trivial

theorem ensures_scalarBinary (op : BinaryOp) (l r : Value) : Ensures Rectangular (scalarBinary op l r) := by
  have shifted : ∀ left n, Ensures Rectangular (shift left l n) := by
    intro left n
    unfold shift
    split <;> first | exact ensures_throw _ | exact ensures_pure trivial
  cases op
  case shiftLeft => exact ensures_next _ fun n => shifted true _
  case shiftRight => exact ensures_next _ fun n => shifted false _
  all_goals exact ensures_paired _ l r

theorem length_rows (columns : List (List Single)) : (rows columns).length = rowCount columns := by
  rw [rows, List.length_map, List.length_range]

theorem length_of_mem_rows {row : List Single} (h : row ∈ rows columns) :
    row.length = columns.length := by
  obtain ⟨r, -, rfl⟩ := List.mem_map.1 h
  exact List.length_map _

/-- Rows and columns exchanged. -/
theorem Rectangle.rows (h : Rectangle columns) : Rectangle (rows columns) :=
  rectangle_of_length h.high h.wide (length_rows columns) fun _ => length_of_mem_rows

theorem Rectangle.product (ha : Rectangle a) (hb : Rectangle b) :
    Rectangle (b.map fun column => (Value.rows a).map fun row => sumOfProducts row column) := by
  refine rectangle_of_length hb.wide ha.high (List.length_map _) fun column hc => ?_
  obtain ⟨c, -, rfl⟩ := List.mem_map.1 hc
  rw [List.length_map, length_rows]

theorem Rectangle.mapColumns (h : Rectangle columns) (f : Single → Single) :
    Rectangle (columns.map fun column => column.map f) := by
  refine rectangle_of_length h.wide h.high (List.length_map _) fun column hc => ?_
  obtain ⟨c, old, rfl⟩ := List.mem_map.1 hc
  rw [List.length_map, h.even c old]

/-- A sum is as high as the lower of the two. -/
theorem Rectangle.addColumns (ha : Rectangle a) (hb : Rectangle b) (hlength : a.length = b.length)
    (sign : Single) : Rectangle (addColumns sign a b) := by
  have high : min (rowCount a) (rowCount b) ∈ Set.Icc 2 4 :=
    ⟨le_min ha.high.1 hb.high.1, min_le_of_left_le ha.high.2⟩
  refine rectangle_of_length ha.wide high ?_ fun column hc => ?_
  · rw [Value.addColumns, List.length_zipWith, ← hlength, Nat.min_self]
  · obtain ⟨i, hi, rfl⟩ := List.getElem_of_mem hc
    simp only [Value.addColumns, List.getElem_zipWith, List.length_zipWith]
    rw [ha.even _ (List.getElem_mem _), hb.even _ (List.getElem_mem _)]

theorem ensures_matrixBinary (op : BinaryOp) {l r : Value} (hl : l.Rectangular) (hr : r.Rectangular) :
    Ensures Rectangular (matrixBinary op l r) := by
  have scaled : ∀ {m : List (List Single)} {s : Value} (e : RunError), Rectangle m →
      Ensures Rectangular (if s.isScalar then (matrix ∘ scale m) <$> s.number else throw e) := by
    intro m s e hm
    split
    · exact (ensures_all _).map fun x _ => hm.mapColumns _
    · exact ensures_throw e
  unfold matrixBinary
  split
  case h_1 =>
    refine ensures_next _ fun v => ?_
    split
    · exact ensures_throw _
    · exact ensures_pure (rectangular_ofSingles _)
  case h_2 =>
    exact ensures_next _ fun v => ensures_next _ fun items => ensures_pure (rectangular_ofSingles _)
  case h_3 =>
    split
    · exact ensures_pure (hl.product hr)
    · exact ensures_throw _
  case h_4 => exact scaled _ hl
  case h_5 => exact scaled _ hr
  case h_6 =>
    split
    · exact ensures_pure (hl.addColumns hr ‹_› _)
    · exact ensures_throw _
  case h_7 =>
    split
    · exact ensures_pure (hl.addColumns hr ‹_› _)
    · exact ensures_throw _
  case h_8 => exact ensures_pure trivial
  case h_9 => exact ensures_pure trivial
  case h_10 => exact ensures_throw _

theorem ensures_binary (op : BinaryOp) {l r : Value} (hl : l.Rectangular) (hr : r.Rectangular) :
    Ensures Rectangular (binary op l r) := by
  unfold binary
  split
  · exact ensures_matrixBinary op hl hr
  · exact ensures_matrixBinary op hl hr
  · exact ensures_zipComponents (ensures_scalarBinary op) l r

theorem ensures_unary (op : UnaryOp) (h : v.Rectangular) : Ensures Rectangular (unary op v) := by
  unfold unary
  split
  · exact ensures_pure (Rectangle.mapColumns h _)
  · refine ensures_mapComponents (fun c => ?_) v
    unfold scalarUnary
    split <;> first | exact ensures_throw _ | exact ensures_pure trivial

/-! ## Constructors -/

theorem rectangular_ofLiteral (l : Literal) : (ofLiteral l).Rectangular := by
  unfold ofLiteral
  repeat' split
  all_goals trivial

theorem ensures_bitcast (kind : ScalarKind) (v : Value) : Ensures Rectangular (bitcast kind v) := by
  refine ensures_mapComponents (fun c => ensures_next _ fun n => ?_) v
  cases kind <;> first | exact ensures_throw _ | exact ensures_pure trivial

theorem ensures_constructMatrix {base : String} {n height : Nat}
    (hs : matrixShape? base = some (n, height)) (args : List Value) :
    Ensures Rectangular (constructMatrix n height args) := by
  unfold constructMatrix
  refine ensures_next _ fun xs => ?_
  split
  · rename_i hlength
    refine ensures_pure (rectangle_of_shape hs ?_ fun column hc => ?_)
    · rw [columnsOf, List.length_map, List.length_range]
    · obtain ⟨c, inside, rfl⟩ := List.mem_map.1 hc
      have below : c * height + height ≤ xs.length := by
        rw [hlength, ← Nat.succ_mul]
        exact Nat.mul_le_mul_right height (List.mem_range.1 inside)
      rw [List.length_take, List.length_drop, Nat.min_eq_left (Nat.le_sub_of_add_le' below)]
  · exact ensures_throw _

theorem ensures_constructVector (length : Nat) (kind : ScalarKind) (args : List Value) :
    Ensures Rectangular (constructVector length kind args) := by
  have filled : ∀ parts : List Value, Ensures Rectangular
      (if parts.length = length then vector <$> parts.mapM (convert kind)
        else throw (RunCause.vectorLength length parts.length).unplaced) := by
    intro parts
    split
    · exact ensures_vector (ensures_mapM fun c _ => ensures_convert kind c)
    · exact ensures_throw _
  unfold constructVector
  simp only [← map_eq_pure_bind]
  exact filled _

theorem ensures_constructFields (members : List MemberInfo) {args : List Value}
    (h : ∀ v ∈ args, v.Rectangular) :
    Ensures (fun fields => ∀ field ∈ fields, field.2.Rectangular) (constructFields members args) := by
  fun_induction constructFields members args with
  | case1 m members v args ih =>
    obtain ⟨hv, hargs⟩ := List.forall_mem_cons.1 h
    refine (ensures_coerceTo m.type hv).bind fun u hu => (ih hargs).bind fun fields hfields => ?_
    exact ensures_pure (List.forall_mem_cons.2 ⟨hu, hfields⟩)
  | case2 => exact ensures_pure nofun

theorem ensures_constructShape (t : TypeInfo) (inferred : Bool) {args : List Value}
    (h : ∀ v ∈ args, v.Rectangular) : Ensures Rectangular (constructShape t inferred args) := by
  unfold constructShape
  split
  · split
    · split
      · exact ensures_convert _ _
      · exact ensures_throw _
    · exact ensures_throw _
  · split
    · exact ensures_pure (rectangular_array.2 h)
    · exact (ensures_mapM fun v hv => ensures_coerceTo _ (h v hv)).map fun vs hvs =>
        rectangular_array.2 hvs.2
  · split
    · exact (ensures_constructFields _ h).map fun fields hfields => rectangular_struct.2 hfields
    · exact ensures_throw _
  · exact ensures_throw _

theorem ensures_construct (t : TypeInfo) (inferred : Bool) {args : List Value}
    (h : ∀ v ∈ args, v.Rectangular) : Ensures Rectangular (construct t inferred args) := by
  unfold construct
  split
  · exact ensures_pure (rectangular_zeroOf t)
  · split
    · rename_i hs
      obtain ⟨base, -, hs⟩ := Option.bind_eq_some_iff.1 hs
      exact ensures_constructMatrix hs _
    · split
      · exact ensures_constructVector _ _ _
      · exact ensures_constructShape t inferred h

/-! ## Parts -/

theorem ensures_element (i : Int) (h : ∀ v ∈ items, v.Rectangular) :
    Ensures Rectangular (element items i) := fun u hu =>
  h u (List.mem_of_getElem? (element_eq_ok.1 hu).2)

theorem ensures_picked {e : RunError} (indices : List Nat) (h : ∀ v ∈ items, v.Rectangular) :
    Ensures (fun vs => vs.length = indices.length ∧ ∀ v ∈ vs, v.Rectangular)
      (indices.mapM fun i => match items[i]? with
        | some v => pure v
        | none => throw e) := by
  refine ensures_mapM fun i _ => ?_
  split
  · exact ensures_pure (h _ (List.mem_of_getElem? ‹_›))
  · exact ensures_throw e

theorem rectangular_field {t : Table Value} {name : String} (h : ∀ field ∈ t, field.2.Rectangular)
    (hv : t.find? name = some v) : v.Rectangular := by
  obtain ⟨before, after, rfl, -⟩ := List.lookup_eq_some_iff.1 hv
  exact h (name, v) (List.mem_append_right _ List.mem_cons_self)

theorem ensures_part (h : v.Rectangular) (a : Access) : Ensures Rectangular (v.part a) := by
  unfold part
  split
  · split
    · exact ensures_pure (rectangular_field (rectangular_struct.1 h) ‹_›)
    · exact ensures_throw _
  · unfold pick
    split
    · exact ensures_throw _
    · refine (ensures_picked _ (rectangular_vector.1 h)).bind fun picked hpicked => ?_
      split
      · exact ensures_pure (hpicked.2 _ List.mem_cons_self)
      · exact ensures_pure (rectangular_vector.2 hpicked.2)
  · exact ensures_element _ (rectangular_vector.1 h)
  · exact ensures_element _ (rectangular_array.1 h)
  · exact (ensures_all _).map fun xs _ => rectangular_ofSingles xs
  · exact ensures_throw _

theorem ensures_atPath (h : v.Rectangular) (path : List Access) :
    Ensures Rectangular (v.atPath path) :=
  Run.ensures_foldlM h fun _ a hu _ => ensures_part hu a

/-! ## Assignments -/

theorem forall_mem_set {α : Type} {P : α → Prop} {as : List α} {i : Nat} {new : α}
    (h : ∀ a ∈ as, P a) (hnew : P new) : ∀ a ∈ as.set i new, P a := fun a ha =>
  (List.mem_or_eq_of_mem_set ha).elim (h a) fun e => e ▸ hnew

theorem forall_mem_insert {α : Type} {P : String × α → Prop} {t : Table α} {name : String} {new : α}
    (h : ∀ field ∈ t, P field) (hnew : P (name, new)) : ∀ field ∈ t.insert name new, P field := by
  induction t with
  | nil => exact List.forall_mem_singleton.2 hnew
  | cons field t ih =>
    obtain ⟨hfield, ht⟩ := List.forall_mem_cons.1 h
    unfold Table.insert
    split
    · rename_i e
      exact List.forall_mem_cons.2 ⟨e ▸ hnew, ht⟩
    · exact List.forall_mem_cons.2 ⟨hfield, ih ht⟩

theorem HasSlot.rectangular {a : Access} {old : Value} (h : v.HasSlot a old) (hv : v.Rectangular) :
    old.Rectangular := by
  cases h with
  | field h => exact rectangular_field (rectangular_struct.1 hv) h
  | letter _ hi => exact rectangular_vector.1 hv _ (List.mem_of_getElem? hi)
  | component _ h => exact rectangular_vector.1 hv _ (List.mem_of_getElem? h)
  | element _ h => exact rectangular_array.1 hv _ (List.mem_of_getElem? h)

theorem HasSlot.rectangular_withSlot {a : Access} {old new : Value} (h : v.HasSlot a old)
    (hv : v.Rectangular) (hnew : new.Rectangular) : (v.withSlot a new).Rectangular := by
  cases h with
  | field h => exact rectangular_struct.2 (forall_mem_insert (rectangular_struct.1 hv) hnew)
  | letter hs hi =>
    simp only [Value.withSlot, hs]
    exact rectangular_vector.2 (forall_mem_set (rectangular_vector.1 hv) hnew)
  | component hi h => exact rectangular_vector.2 (forall_mem_set (rectangular_vector.1 hv) hnew)
  | element hi h => exact rectangular_array.2 (forall_mem_set (rectangular_array.1 hv) hnew)

theorem Assigned.rectangular {pairs : List (Nat × Value)} {items' : List Value}
    (h : Assigned pairs items items') (hitems : ∀ v ∈ items, v.Rectangular)
    (hpairs : ∀ pair ∈ pairs, pair.2.Rectangular) : ∀ v ∈ items', v.Rectangular := by
  induction h with
  | nil => exact hitems
  | cons hi hk _ ih =>
    obtain ⟨hnew, hrest⟩ := List.forall_mem_cons.1 hpairs
    exact ih (forall_mem_set hitems (ensures_coerceLike _ hnew _ hk)) hrest

theorem rectangular_assignSwizzle (swizzle : String) {new : Value} (hnew : new.Rectangular)
    (h : ∀ v ∈ items, v.Rectangular) :
    ∀ v ∈ ((assignSwizzle swizzle new).apply items).2, v.Rectangular := by
  rw [assignSwizzle_apply]
  split
  · exact h
  · rename_i indices _
    split
    · have parts : ∀ pair ∈ indices.zip new.components, pair.2.Rectangular := fun pair hp =>
        hnew.components _ (List.of_mem_zip hp).2
      obtain ⟨items', ha, e⟩ | ⟨done, i, w, rest, items', error, split, ha, -, e⟩ :=
        assignEach_cases swizzle (indices.zip new.components) items
      · rw [e]
        exact ha.rectangular h parts
      · rw [e]
        exact ha.rectangular h fun pair hp => parts pair (split ▸ List.mem_append_left _ hp)
    · exact h

/-- A column is replaced by one of its length only. -/
theorem rectangle_assignColumn (i : Int) (new : Value) (h : Rectangle columns) :
    Rectangle ((assignColumn i new).apply columns).2 := by
  rw [assignColumn_apply]
  split
  · exact h
  · exact h
  · rename_i old column hold _
    split
    · rename_i hlength
      have high := h.even old (List.mem_of_getElem? (element_eq_ok.1 hold).2)
      exact rectangle_of_length h.wide h.high List.length_set
        (forall_mem_set h.even (hlength.trans high))
    · exact h

theorem rectangular_replace {new : Value} (hnew : new.Rectangular) (h : v.Rectangular) :
    ((replace new).apply v).2.Rectangular := by
  rw [replace_apply]
  split
  · exact ensures_coerceLike v hnew _ ‹_›
  · exact h

/-- Whatever is assigned where, also if the assignment stops half way. -/
theorem rectangular_assignPath (path : List Access) {new : Value} (hnew : new.Rectangular)
    (h : v.Rectangular) : ((assignPath path new).apply v).2.Rectangular := by
  refine assignPath_induction new
    (motive := fun v path => v.Rectangular → ((assignPath path new).apply v).2.Rectangular)
    (fun v => rectangular_replace hnew) (fun items s h => ?_) (fun columns i h => ?_)
    (fun v a rest _ _ e ih h => ?_) v path h
  · rw [assignPath_vector]
    exact rectangular_vector.2 (rectangular_assignSwizzle s hnew (rectangular_vector.1 h))
  · rw [assignPath_matrix]
    exact rectangle_assignColumn i new h
  · rw [e, within_apply]
    split
    · rename_i old hold
      have hslot := slot_eq_ok.1 hold
      exact hslot.rectangular_withSlot h (ih old hslot (hslot.rectangular h))
    · exact h

end Value

end Wgsl
