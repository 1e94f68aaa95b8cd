import Mathlib.Data.List.Forall2
import Wgsl.Proofs.Memory.Reading

/-! # The parts of a value in a buffer

A value of a storable type lies in a buffer part by part. Its parts have positions, on the side of
the value as on the side of the type.

* `Value.At`: the parts of a value with their positions.
* `Memory.loadAt_iff_parts`: a value is loaded from a view if and only if its parts are loaded from
  the places of the parts.
* `Memory.loadAt_withPart`: after a change to the bytes of one part, the whole is loaded with
  another value of that part.
* `Memory.partAt_names`: the access that names a position narrows the view to the part.
-/

namespace Wgsl
set_option autoImplicit false

open Number (Single)

/-- Entering under a name that stands once replaces the value in its place. -/
theorem Table.insert_eq_modify {α : Type} {t : Table α} (hn : (t.map Prod.fst).Nodup) {i : Nat}
    {name : String} {old : α} (h : t[i]? = some (name, old)) (value : α) :
    t.insert name value = t.modify i fun p => (p.1, value) := by
  induction t generalizing i with
  | nil => cases h
  | cons first rest ih =>
    obtain ⟨n, v⟩ := first
    rw [List.map_cons, List.nodup_cons] at hn
    cases i with
    | zero =>
      cases h
      rw [insert, if_pos rfl, List.modify_zero_cons]
    | succ i =>
      have hne : n ≠ name := by
        rintro rfl
        exact hn.1 (List.mem_map.2 ⟨_, List.mem_of_getElem? h, rfl⟩)
      rw [insert, if_neg hne, List.modify_succ_cons, ih hn.2 h]

/-! ## Runs and lists -/

namespace Run

variable {α β : Type}

theorem values_iff {f : Nat → Run α} {count : Nat} {xs : List α} :
    values count f = .ok xs ↔ xs.length = count ∧ ∀ i x, xs[i]? = some x → f i = .ok x := by
  constructor
  · exact values_ok
  · rintro ⟨rfl, h⟩
    exact values_eq_ok h

theorem map_eq_ok {r : Run α} {f : α → β} {b : β} : f <$> r = .ok b ↔ ∃ a, r = .ok a ∧ f a = b := by
  constructor
  · exact map_ok
  · rintro ⟨a, rfl, rfl⟩
    rfl

end Run

theorem forall₂_iff {α β : Type} {R : α → β → Prop} {as : List α} {bs : List β} :
    List.Forall₂ R as bs ↔ as.length = bs.length ∧
      ∀ (i : Nat) (a : α) (b : β), as[i]? = some a → bs[i]? = some b → R a b := by
  rw [List.forall₂_iff_get]
  refine and_congr_right fun _ => ⟨fun h i a b ha hb => ?_, fun h i ha hb => ?_⟩
  · obtain ⟨hi, rfl⟩ := List.getElem?_eq_some_iff.1 ha
    obtain ⟨hi', rfl⟩ := List.getElem?_eq_some_iff.1 hb
    exact h i hi hi'
  · exact h i _ _ (List.getElem?_eq_getElem ha) (List.getElem?_eq_getElem hb)

/-! ## Positions -/

namespace Value

variable {x y z : Value} {i j : Nat}

/-- The part of a value at a position: a field, an element, a component or a column. -/
inductive At : Value → Nat → Value → Prop where
  | field {name m : String} {fields : List (String × Value)} {i : Nat} {y : Value}
      (h : fields[i]? = some (m, y)) : At (.struct name fields) i y
  | element {items : List Value} {i : Nat} {y : Value} (h : items[i]? = some y) :
      At (.array items) i y
  | component {items : List Value} {i : Nat} {y : Value} (h : items[i]? = some y) :
      At (.vector items) i y
  | column {columns : List (List Single)} {i : Nat} {column : List Single}
      (h : columns[i]? = some column) : At (.matrix columns) i (.ofSingles column)

/-- A position has one part. -/
theorem At.unique (h : x.At i y) (h' : x.At i z) : y = z := by
  cases h with
  | field h =>
    cases h' with
    | field h' =>
      cases h.symm.trans h'
      rfl
  | element h =>
    cases h' with
    | element h' => exact Option.some.inj (h.symm.trans h')
  | component h =>
    cases h' with
    | component h' => exact Option.some.inj (h.symm.trans h')
  | column h =>
    cases h' with
    | column h' =>
      cases h.symm.trans h'
      rfl

/-- The value with another part at a position. -/
def withPart : Value → Nat → Value → Value
  | struct name fields, i, y => struct name (fields.modify i fun f => (f.1, y))
  | array items, i, y => array (items.set i y)
  | vector items, i, y => vector (items.set i y)
  | matrix columns, i, y =>
    match y.numbers with
    | .ok column => matrix (columns.set i column)
    | .error _ => matrix columns
  | v, _, _ => v

theorem numbers_ofSingles (column : List Single) : (ofSingles column).numbers = .ok column :=
  Memory.mapM_number_map_f32 column

theorem withPart_column (columns : List (List Single)) (i : Nat) (column : List Single) :
    (matrix columns).withPart i (.ofSingles column) = .matrix (columns.set i column) := by
  rw [withPart, numbers_ofSingles]

/-- The other parts stay. -/
theorem At.of_withPart (h : (x.withPart i y).At j z) (hij : j ≠ i) : x.At j z := by
  cases x with
  | struct name fields =>
    cases h with
    | field h => exact .field (by simpa [List.getElem?_modify, Ne.symm hij] using h)
  | array items =>
    cases h with
    | element h => exact .element (by rwa [List.getElem?_set_ne (Ne.symm hij)] at h)
  | vector items =>
    cases h with
    | component h => exact .component (by rwa [List.getElem?_set_ne (Ne.symm hij)] at h)
  | matrix columns =>
    rw [withPart] at h
    split at h
    · cases h with
      | column h => exact .column (by rwa [List.getElem?_set_ne (Ne.symm hij)] at h)
    · exact h
  | _ => cases h

end Value

/-! ## Values of a type and their parts -/

namespace Value

variable {x y : Value}

theorem haveTypes_iff {members : List MemberInfo} {fields : List (String × Value)} :
    HaveTypes members fields ↔
      List.Forall₂ (fun m f => f.1 = m.name ∧ HasType m.type f.2) members fields := by
  induction members generalizing fields with
  | nil =>
    cases fields with
    | nil => exact ⟨fun _ => .nil, fun _ => trivial⟩
    | cons f rest => exact ⟨False.elim, nofun⟩
  | cons m members ih =>
    obtain ⟨name, type, offset, size, align⟩ := m
    cases fields with
    | nil => exact ⟨fun h => by simp only [HaveTypes] at h, nofun⟩
    | cons f rest =>
      obtain ⟨found, value⟩ := f
      rw [List.forall₂_cons, HaveTypes, ih, and_assoc]
      rfl

/-- The values of a scalar type. -/
theorem hasType_scalar {e : TypeInfo} {kind : ScalarKind} (he : e.shape = .scalar kind) :
    y.HasType e ↔ y.OfKind kind := by
  obtain ⟨_, _, _, _, _⟩ := e
  cases he
  rfl

section

variable {name base : String} {attributes : List Attribute} {size align : Nat} {e : TypeInfo}
  {kind : ScalarKind} {access space : Option String}

theorem hasType_template (he : e.shape = .scalar kind) :
    y.HasType (.mk name attributes size align (.template base (some e) access space)) ↔
      y.HasTemplate base kind := by
  rw [HasType, HasShape, TypeInfo.paramScalarKind?_of_scalar he]
  constructor
  · rintro ⟨_, ⟨⟩, h⟩
    exact h
  · exact fun h => ⟨kind, rfl, h⟩

/-- The values of a vector type. -/
theorem hasType_vector {n : Nat} (hb : Wgsl.vectorLength? base = some n)
    (he : e.shape = .scalar kind) :
    y.HasType (.mk name attributes size align (.template base (some e) access space)) ↔
      ∃ items, y = .vector items ∧ items.length = n ∧ ∀ item ∈ items, item.OfKind kind := by
  rw [hasType_template he]
  have hatomic : base ≠ "atomic" := by
    rintro rfl
    cases hb
  constructor
  · intro h
    cases y with
    | vector items =>
      obtain ⟨hlen, hitems⟩ := h
      rw [hb] at hlen
      exact ⟨items, rfl, (Option.some.inj hlen).symm, hitems⟩
    | matrix columns =>
      obtain ⟨rows, hrows, -⟩ := h
      rw [TypeInfo.matrixShape?_eq_none hb] at hrows
      cases hrows
    | _ => exact absurd h.1 hatomic
  · rintro ⟨items, rfl, rfl, hitems⟩
    exact ⟨hb, hitems⟩

/-- The values of a matrix type. -/
theorem hasType_matrix {n rows : Nat} (hb : Wgsl.matrixShape? base = some (n, rows))
    (he : e.shape = .scalar kind) :
    y.HasType (.mk name attributes size align (.template base (some e) access space)) ↔
      ∃ columns, y = .matrix columns ∧ columns.length = n ∧
        ∀ column ∈ columns, column.length = rows ∧ ∀ f ∈ column, (Value.f32 f).OfKind kind := by
  rw [hasType_template he]
  have hatomic : base ≠ "atomic" := by
    rintro rfl
    cases hb
  constructor
  · intro h
    cases y with
    | vector items =>
      obtain ⟨hlen, -⟩ := h
      rw [TypeInfo.vectorLength?_eq_none hb] at hlen
      cases hlen
    | matrix columns =>
      obtain ⟨rows', hrows, hcolumns⟩ := h
      rw [hb] at hrows
      cases hrows
      exact ⟨columns, rfl, rfl, hcolumns⟩
    | _ => exact absurd h.1 hatomic
  · rintro ⟨columns, rfl, rfl, hcolumns⟩
    exact ⟨rows, hb, hcolumns⟩

end

/-- A scalar of a float kind is held as a float. -/
theorem OfKind.float {kind : ScalarKind} (h : y.OfKind kind) (hk : kind = .f32 ∨ kind = .f16) :
    y ∈ Set.range Value.f32 := by
  rcases hk with rfl | rfl <;> cases y <;> first | exact ⟨_, rfl⟩ | cases h

/-- The values of a column are those of its floats. -/
theorem hasType_column {rows : Nat} {e : TypeInfo} {kind : ScalarKind}
    (hrows : Wgsl.vectorLength? ("vec" ++ toString rows) = some rows) (he : e.shape = .scalar kind)
    (hk : kind = .f32 ∨ kind = .f16) : y.HasType (.columnOf rows e) ↔
      ∃ column, y = .ofSingles column ∧ column.length = rows ∧
        ∀ f ∈ column, (Value.f32 f).OfKind kind := by
  rw [TypeInfo.columnOf, hasType_vector hrows he]
  constructor
  · rintro ⟨items, rfl, hlen, hitems⟩
    obtain ⟨column, rfl⟩ :=
      (Set.range_list_map Value.f32).superset fun item hi => (hitems item hi).float hk
    refine ⟨column, rfl, ?_, fun f hf => hitems _ (List.mem_map_of_mem hf)⟩
    rw [← hlen, List.length_map]
  · rintro ⟨column, rfl, rfl, hcolumn⟩
    refine ⟨_, rfl, List.length_map _, fun item hi => ?_⟩
    obtain ⟨f, hf, rfl⟩ := List.mem_map.1 hi
    exact hcolumn f hf

end Value

/-! ## Parts of types -/

theorem MemberInfo.Storable.get {members : List MemberInfo} {i : Nat} {m : MemberInfo}
    (h : MemberInfo.Storable members) (hm : members[i]? = some m) : m.type.Storable := by
  induction members generalizing i with
  | nil => cases hm
  | cons first rest ih =>
    obtain ⟨name, type, offset, size, align⟩ := first
    cases i with
    | zero =>
      cases hm
      exact h.1
    | succ i => exact ih h.2 hm

namespace TypeInfo

/-- An access that selects the part at a position: by the number of an element, a component or a
column, by the name of a member, or by the letter of a component. -/
inductive Names : TypeInfo → Access → Nat → Prop where
  | number {t : TypeInfo} {i : Nat} (h : t.members? = none) : Names t (.index i) i
  | member {t : TypeInfo} {members : List MemberInfo} {m : MemberInfo} {name : String} {i : Nat}
      (h : t.members? = some members) (hm : members[i]? = some m) (hname : m.name = name) :
      Names t (.member name) i
  | letter {t : TypeInfo} {n i : Nat} {letter : String} (h : t.vectorLength? = some n)
      (hs : swizzleIndices? letter = some [i]) : Names t (.member letter) i

/-- The kind of the components, if the generator is one of matrices. -/
theorem floats_of_matrix {base : String} {columns rows : Nat} {kind : ScalarKind}
    (hb : Wgsl.matrixShape? base = some (columns, rows))
    (h : (Wgsl.vectorLength? base).isSome ∨
      ((Wgsl.matrixShape? base).isSome ∧ (kind = .f32 ∨ kind = .f16)) ∨
      (base = "atomic" ∧ (kind = .i32 ∨ kind = .u32))) : kind = .f32 ∨ kind = .f16 := by
  rcases h with hv | ⟨-, hfloat⟩ | ⟨rfl, -⟩
  · rw [vectorLength?_eq_none hb] at hv
    cases hv
  · exact hfloat
  · cases hb

namespace HasPart

variable {t part : TypeInfo} {i start : Nat}

theorem storable (h : t.HasPart i start part) (hs : t.Storable) : part.Storable := by
  cases h with
  | element => exact hs.1
  | member hm => exact hs.2.get hm
  | component =>
    obtain ⟨e, kind, he, hk, -⟩ := hs
    cases he
    obtain ⟨_, _, _, _, _⟩ := part
    cases hk
    trivial
  | column hb =>
    obtain ⟨e, kind, he, hk, -⟩ := hs
    cases he
    exact ⟨_, kind, rfl, hk, .inl (by rw [(rows_bounds hb).2.2]; rfl)⟩

/-- Parts that are not members are elements. -/
theorem elements (h : t.HasPart i start part) (hm : t.members? = none) (count : Nat) :
    ∃ e, t.elements count = .ok e ∧ e.type = part ∧ i * e.stride = start ∧ i < e.count := by
  cases h with
  | element hi => exact ⟨_, rfl, rfl, rfl, hi⟩
  | member => cases hm
  | component hb hi => exact ⟨_, elements_vector hb count, rfl, rfl, hi⟩
  | column hb hi => exact ⟨_, elements_matrix hb count, rfl, rfl, hi⟩

end HasPart

end TypeInfo

theorem MemberInfo.find?_name {members : List MemberInfo} (hn : (members.map MemberInfo.name).Nodup)
    {i : Nat} {m : MemberInfo} (hm : members[i]? = some m) :
    members.find? (fun other => other.name = m.name) = some m := by
  induction members generalizing i with
  | nil => cases hm
  | cons first rest ih =>
    rw [List.map_cons, List.nodup_cons] at hn
    cases i with
    | zero =>
      cases hm
      exact List.find?_cons_of_pos (decide_eq_true rfl)
    | succ i =>
      have hne : first.name ≠ m.name := fun he =>
        hn.1 (he ▸ List.mem_map_of_mem (List.mem_of_getElem? hm))
      rw [List.find?_cons, decide_eq_false hne]
      exact ih hn.2 hm

/-! ## Parts of values of a type -/

namespace Value

variable {x y : Value} {t u : TypeInfo} {i start : Nat} {a : Access}

theorem names_of_hasTypes {members : List MemberInfo} {fields : List (String × Value)}
    (h : HaveTypes members fields) {m : MemberInfo} (hm : members[i]? = some m) :
    ∃ y, fields[i]? = some (m.name, y) ∧ y.HasType m.type := by
  obtain ⟨hlen, hall⟩ := forall₂_iff.1 (haveTypes_iff.1 h)
  have hi : i < fields.length := hlen ▸ (List.getElem?_eq_some_iff.1 hm).1
  obtain ⟨hname, htype⟩ := hall i m _ hm (List.getElem?_eq_getElem hi)
  exact ⟨fields[i].2, by rw [List.getElem?_eq_getElem hi, ← hname], htype⟩

/-- A value has the parts of its type. -/
theorem HasType.at (hx : x.HasType t) (hp : t.HasPart i start u) (hs : t.Storable) :
    ∃ y, x.At i y ∧ y.HasType u := by
  cases hp with
  | element hi =>
    cases x with
    | array items =>
      obtain ⟨hcount, hitems⟩ := hx
      cases hcount
      exact ⟨items[i], .element (List.getElem?_eq_getElem hi), hitems _ (List.getElem_mem hi)⟩
    | _ => exact hx.elim
  | member hm =>
    cases x with
    | struct found fields =>
      obtain ⟨y, hy, htype⟩ := names_of_hasTypes hx.2 hm
      exact ⟨y, .field hy, htype⟩
    | _ => exact hx.elim
  | component hb hi =>
    obtain ⟨e, kind, he, hk, -⟩ := hs
    cases he
    obtain ⟨items, rfl, rfl, hitems⟩ := (hasType_vector hb hk).1 hx
    exact ⟨items[i], .component (List.getElem?_eq_getElem hi),
      (hasType_scalar hk).2 (hitems _ (List.getElem_mem hi))⟩
  | column hb hi =>
    obtain ⟨e, kind, he, hk, hbase⟩ := hs
    cases he
    obtain ⟨columns, rfl, rfl, hcolumns⟩ := (hasType_matrix hb hk).1 hx
    refine ⟨.ofSingles columns[i], .column (List.getElem?_eq_getElem hi), ?_⟩
    exact (hasType_column (TypeInfo.rows_bounds hb).2.2 hk (TypeInfo.floats_of_matrix hb hbase)).2
      ⟨_, rfl, hcolumns _ (List.getElem_mem hi)⟩

/-- Another part of the same type leaves a value of the type. -/
theorem HasType.withPart (hx : x.HasType t) (hp : t.HasPart i start u) (hs : t.Storable)
    (hy : y.HasType u) : (x.withPart i y).HasType t ∧ (x.withPart i y).At i y := by
  cases hp with
  | element hi =>
    cases x with
    | array items =>
      obtain ⟨hcount, hitems⟩ := hx
      cases hcount
      refine ⟨⟨by rw [List.length_set], fun item hitem => ?_⟩, .element (List.getElem?_set_self hi)⟩
      rcases List.mem_or_eq_of_mem_set hitem with hold | rfl
      · exact hitems item hold
      · exact hy
    | _ => exact hx.elim
  | @member _ _ _ _ _ _ _ _ _ m hm =>
    cases x with
    | struct found fields =>
      obtain ⟨rfl, htypes⟩ := hx
      obtain ⟨old, hold, -⟩ := names_of_hasTypes htypes hm
      have hset : (fields.modify i fun f => (f.1, y))[i]? = some (m.name, y) := by
        rw [List.getElem?_modify_eq, hold]
        rfl
      refine ⟨⟨rfl, haveTypes_iff.2 (forall₂_iff.2 ⟨?_, fun j member f hj hf => ?_⟩)⟩, .field hset⟩
      · rw [List.length_modify]
        exact (forall₂_iff.1 (haveTypes_iff.1 htypes)).1
      · by_cases hij : i = j
        · subst hij
          cases hm.symm.trans hj
          cases hset.symm.trans hf
          exact ⟨rfl, hy⟩
        · have hsame : fields[j]? = some f := by simpa [List.getElem?_modify, hij] using hf
          exact (forall₂_iff.1 (haveTypes_iff.1 htypes)).2 j member f hj hsame
    | _ => exact hx.elim
  | component hb hi =>
    obtain ⟨e, kind, he, hk, -⟩ := hs
    cases he
    obtain ⟨items, rfl, rfl, hitems⟩ := (hasType_vector hb hk).1 hx
    refine ⟨(hasType_vector hb hk).2 ⟨_, rfl, List.length_set, fun item hitem => ?_⟩,
      .component (List.getElem?_set_self hi)⟩
    rcases List.mem_or_eq_of_mem_set hitem with hold | rfl
    · exact hitems item hold
    · exact (hasType_scalar hk).1 hy
  | column hb hi =>
    obtain ⟨e, kind, he, hk, hbase⟩ := hs
    cases he
    obtain ⟨columns, rfl, rfl, hcolumns⟩ := (hasType_matrix hb hk).1 hx
    obtain ⟨column, rfl, hcolumn⟩ :=
      (hasType_column (TypeInfo.rows_bounds hb).2.2 hk (TypeInfo.floats_of_matrix hb hbase)).1 hy
    rw [withPart_column]
    refine ⟨(hasType_matrix hb hk).2 ⟨_, rfl, List.length_set, fun c hc => ?_⟩,
      .column (List.getElem?_set_self hi)⟩
    rcases List.mem_or_eq_of_mem_set hc with hold | rfl
    · exact hcolumns c hold
    · exact hcolumn

/-- An access that names a position goes into the part there, if the value is no matrix. -/
theorem At.hasSlot (hat : x.At i y) (hx : x.HasType t) (hp : t.HasPart i start u) (hs : t.Storable)
    (ha : t.Names a i) :
    (x.HasSlot a y ∧ ∀ y', x.withSlot a y' = x.withPart i y') ∨ ∃ columns, x = .matrix columns := by
  cases hp with
  | element hi =>
    cases x with
    | array items =>
      cases ha with
      | member hm => cases hm
      | letter hn => cases hn
      | number =>
        cases hat with
        | element h => exact .inl ⟨.element (Int.natCast_nonneg i) h, fun _ => rfl⟩
    | _ => exact hx.elim
  | member hm =>
    cases x with
    | struct found fields =>
      cases ha with
      | number hm => cases hm
      | letter hn => cases hn
      | member hm' hget hname =>
        cases hm'
        subst hname
        cases hat with
        | field h =>
          obtain ⟨y', hy, -⟩ := names_of_hasTypes hx.2 hget
          cases h.symm.trans hy
          have hnames : (fields.map Prod.fst).Nodup := Memory.names_of_haveTypes hx.2 ▸ hs.1
          refine .inl ⟨.field (Memory.find?_of_mem hnames (List.mem_of_getElem? h)), fun y' => ?_⟩
          rw [withSlot, withPart, Table.insert_eq_modify hnames h]
    | _ => exact hx.elim
  | component hb hi =>
    obtain ⟨e, kind, he, hk, -⟩ := hs
    cases he
    obtain ⟨items, rfl, rfl, hitems⟩ := (hasType_vector hb hk).1 hx
    cases hat with
    | component h =>
      cases ha with
      | member hm => cases hm
      | number => exact .inl ⟨.component (Int.natCast_nonneg i) h, fun _ => rfl⟩
      | letter _ hletter =>
        exact .inl ⟨.letter hletter h, fun y' => by rw [withSlot, hletter, withPart]⟩
  | column hb hi =>
    obtain ⟨e, kind, he, hk, -⟩ := hs
    cases he
    obtain ⟨columns, rfl, -⟩ := (hasType_matrix hb hk).1 hx
    exact .inr ⟨columns, rfl⟩

end Value

namespace Memory

open BufferView (Part)

variable {m m' : Memory} {buffer : BufferId} {offset : Nat} {t u : TypeInfo} {i start : Nat}
  {a : Access} {x y : Value}

/-- The access that names a position narrows the view to the part there. -/
theorem partAt_names (hp : t.HasPart i start u) (ha : t.Names a i) (hw : t.WellLaid)
    (hs : t.Storable) (hfit : offset + t.size < sizeLimit) :
    m.partAt ⟨buffer, offset, t⟩ a = .ok (.view ⟨buffer, offset + start, u⟩) := by
  obtain ⟨-, -, hin⟩ := hp.inside hw hs.ofScalars
  have hview : ∀ count, t.members? = none →
      BufferView.element ⟨buffer, offset, t⟩ i count = .ok ⟨buffer, offset + start, u⟩ := by
    intro count hm
    obtain ⟨e, he, rfl, rfl, hi⟩ := hp.elements hm count
    exact BufferView.element_ok he hi (by dsimp only; omega)
  cases ha with
  | number hm =>
    rw [partAt, element, hview _ hm]
    rfl
  | member hm hget hname =>
    subst hname
    cases hp with
    | member hget' =>
      cases hm
      cases hget.symm.trans hget'
      have hfound := MemberInfo.find?_name hs.1 hget
      rw [partAt, BufferView.member, TypeInfo.member?]
      dsimp only [TypeInfo.members?, TypeInfo.shape, Option.bind]
      rw [hfound]
      dsimp only
      rw [BufferView.shifted_ok _ (by dsimp only; omega)]
      rfl
    | _ => cases hm
  | @letter n _ _ hn hletter =>
    cases hp with
    | element => cases hn
    | member => cases hn
    | column hb =>
      cases (TypeInfo.vectorLength?_eq_none hb).symm.trans hn
    | component hb hi =>
      cases hn.symm.trans hb
      have hin : ([i].any fun i => decide (n ≤ i)) = false := by simpa using hi
      rw [partAt, BufferView.member_of_vector rfl hb]
      simp only [BufferView.swizzled, hletter, hin, hview 0 rfl]
      rfl

/-! ## Loading parts -/

theorem loadMembers_iff {v : BufferView} {members : List MemberInfo}
    {fields : List (String × Value)} (hfit : ∀ m ∈ members, v.offset + m.offset < sizeLimit) :
    m.loadMembers v members = .ok fields ↔
      List.Forall₂ (fun member f => f.1 = member.name ∧
        m.loadAt v.buffer member.type (v.offset + member.offset) = .ok f.2) members fields := by
  induction members generalizing fields with
  | nil =>
    rw [loadMembers, List.forall₂_nil_left_iff]
    exact ⟨fun h => (Except.ok.inj h).symm, fun h => congrArg Except.ok h.symm⟩
  | cons first rest ih =>
    obtain ⟨name, type, offset, size, align⟩ := first
    have ih := fun fields => @ih fields fun m hm => hfit m (List.mem_cons_of_mem _ hm)
    have hfirst : v.offset + offset < sizeLimit := hfit _ List.mem_cons_self
    rw [loadMembers_cons m hfirst, List.forall₂_cons_left_iff]
    constructor
    · intro h
      obtain ⟨value, hvalue, h⟩ := Run.bind_ok h
      obtain ⟨more, hmore, h⟩ := Run.bind_ok h
      cases h
      exact ⟨(name, value), more, ⟨rfl, hvalue⟩, (ih more).1 hmore, rfl⟩
    · rintro ⟨⟨found, value⟩, more, ⟨rfl, hvalue⟩, hmore, rfl⟩
      have hvalue : m.loadAt v.buffer type (v.offset + offset) = .ok value := hvalue
      rw [hvalue, (ih more).2 hmore]
      rfl

/-- A column is loaded as floats if and only if the vector of them is loaded. -/
theorem loadColumn_iff {rows : Nat} {e : TypeInfo} {kind : ScalarKind}
    (hrows : vectorLength? ("vec" ++ toString rows) = some rows) (he : e.shape = .scalar kind)
    (hk : kind = .f32 ∨ kind = .f16) (hfit : offset + rows * e.size < sizeLimit)
    {column : List Single} :
    m.loadColumn kind buffer rows e.size offset = .ok column ↔
      m.loadAt buffer (.columnOf rows e) offset = .ok (.ofSingles column) := by
  rw [TypeInfo.columnOf, loadAt_vector m hrows he hfit, loadColumn]
  constructor
  · intro h
    obtain ⟨items, hitems, h⟩ := Run.bind_ok h
    have hfloats : ∀ item ∈ items, item ∈ Set.range Value.f32 := by
      intro item hi
      obtain ⟨i, hget⟩ := List.getElem?_of_mem hi
      obtain ⟨bytes, rfl⟩ := loadScalar_eq_decode ((Run.values_ok hitems).2 i item hget)
      rcases hk with rfl | rfl <;> exact ⟨_, rfl⟩
    obtain ⟨floats, rfl⟩ := (Set.range_list_map Value.f32).superset hfloats
    rw [mapM_number_map_f32] at h
    cases h
    rw [hitems]
    rfl
  · intro h
    obtain ⟨items, hitems, h⟩ := Run.map_ok h
    cases h
    rw [hitems]
    exact mapM_number_map_f32 column

/-- A value of a type is loaded if and only if each of its parts is loaded from the place of the
part. -/
theorem loadAt_iff_parts (hp : t.HasPart i start u) (hw : t.WellLaid) (hs : t.Storable)
    (hfit : offset + t.size < sizeLimit) (hx : x.HasType t) : m.loadAt buffer t offset = .ok x ↔
      ∀ j begin_ part y, t.HasPart j begin_ part → x.At j y →
        m.loadAt buffer part (offset + begin_) = .ok y := by
  cases hp with
  | @element name attributes size align n stride _ _ hi =>
    have hsize := (hw.2.2 n rfl).1
    cases x with
    | array items =>
      obtain ⟨hcount, -⟩ := hx
      cases hcount
      rw [loadAt_array m (by rw [TypeInfo.size, hsize] at hfit; exact hfit), Run.map_eq_ok]
      constructor
      · rintro ⟨_, hvalues, ⟨⟩⟩ j begin_ part y hj hy
        cases hj
        cases hy with
        | element hy => exact (Run.values_iff.1 hvalues).2 _ _ hy
      · refine fun h => ⟨items, Run.values_iff.2 ⟨rfl, fun j y hy => ?_⟩, rfl⟩
        have hj := (List.getElem?_eq_some_iff.1 hy).1
        exact h _ _ _ _ (.element hj) (.element hy)
    | _ => exact hx.elim
  | @member name attributes size align first last _ key members _ hm =>
    obtain ⟨finish, hplaced, hround, -⟩ := hw
    have hend := le_of_checkedRoundUp hround
    cases x with
    | struct found fields =>
      obtain ⟨rfl, htypes⟩ := hx
      have hnames := forall₂_iff.1 (Value.haveTypes_iff.1 htypes)
      have hall : ∀ member ∈ members, offset + member.offset < sizeLimit := by
        intro member hmember
        obtain ⟨j, hj⟩ := List.getElem?_of_mem hmember
        have hin := (hplaced.get hj).2.2.2.2
        rw [TypeInfo.size] at hfit
        omega
      rw [loadAt, loadShape, Run.map_eq_ok]
      constructor
      · rintro ⟨_, hfields, ⟨⟩⟩ j begin_ part y hj hy
        have hloaded := forall₂_iff.1 ((loadMembers_iff hall).1 hfields)
        cases hj with
        | member hj =>
          cases hy with
          | field hy => exact (hloaded.2 _ _ _ hj hy).2
      · refine fun h => ⟨fields, (loadMembers_iff hall).2 (forall₂_iff.2 ⟨hnames.1, ?_⟩), rfl⟩
        intro j member f hj hf
        exact ⟨(hnames.2 j member f hj hf).1, h _ _ _ _ (.member hj) (.field hf)⟩
    | _ => exact hx.elim
  | @component name base attributes size align n _ _ access space hb hi =>
    obtain ⟨e, kind, he, hk, -⟩ := hs
    cases he
    obtain ⟨items, rfl, rfl, -⟩ := (Value.hasType_vector hb hk).1 hx
    have hsize := TypeInfo.size_of_vector hb hk hw
    rw [loadAt_vector m hb hk (by rw [TypeInfo.size, hsize] at hfit; exact hfit), Run.map_eq_ok]
    constructor
    · rintro ⟨_, hvalues, ⟨⟩⟩ j begin_ part y hj hy
      cases hy with
      | component hy =>
        obtain ⟨rfl, rfl⟩ := hj.unique (.component hb (List.getElem?_eq_some_iff.1 hy).1)
        rw [loadAt_scalar m _ _ hk]
        exact (Run.values_iff.1 hvalues).2 _ _ hy
    · refine fun h => ⟨items, Run.values_iff.2 ⟨rfl, fun j y hy => ?_⟩, rfl⟩
      have hj := (List.getElem?_eq_some_iff.1 hy).1
      rw [← loadAt_scalar m _ _ hk]
      exact h _ _ _ _ (.component hb hj) (.component hy)
  | @column name base attributes size align n rows _ e access space hb hi =>
    obtain ⟨_, kind, he, hk, hbase⟩ := hs
    cases he
    have hfloat := TypeInfo.floats_of_matrix hb hbase
    obtain ⟨columns, rfl, rfl, -⟩ := (Value.hasType_matrix hb hk).1 hx
    obtain ⟨-, -, hrows⟩ := TypeInfo.rows_bounds hb
    obtain ⟨hsize, hroom⟩ := TypeInfo.size_of_matrix hb hk hw
    rw [TypeInfo.size, hsize] at hfit
    rw [loadAt_matrix m hb hk hroom hfit, Run.map_eq_ok]
    constructor
    · rintro ⟨_, hvalues, ⟨⟩⟩ j begin_ part y hj hy
      cases hy with
      | column hy =>
        have hlt := (List.getElem?_eq_some_iff.1 hy).1
        obtain ⟨rfl, rfl⟩ := hj.unique (.column hb hlt)
        have hin := part_fits hlt hroom
        exact (loadColumn_iff hrows hk hfloat (by omega)).1 ((Run.values_iff.1 hvalues).2 _ _ hy)
    · refine fun h => ⟨columns, Run.values_iff.2 ⟨rfl, fun j column hy => ?_⟩, rfl⟩
      have hlt := (List.getElem?_eq_some_iff.1 hy).1
      have hin := part_fits hlt hroom
      exact (loadColumn_iff hrows hk hfloat (by omega)).2 (h _ _ _ _ (.column hb hlt) (.column hy))

theorem ChangedOn.mono {lo hi lo' hi' : Nat} (h : ChangedOn buffer lo hi m m') (hlo : lo' ≤ lo)
    (hhi : hi ≤ hi') : ChangedOn buffer lo' hi' m m' := by
  obtain ⟨data, data', h1, h2, h3, h4⟩ := h
  exact ⟨data, data', h1, h2, h3, fun i hi => h4 i (by omega)⟩

/-- Different parts have no byte in common. -/
theorem disjoint_parts {j start' : Nat} {u' : TypeInfo} (hp : t.HasPart i start u)
    (hp' : t.HasPart j start' u') (hij : j ≠ i) (hw : t.WellLaid) (hs : t.Storable) :
    start' + u'.size ≤ start ∨ start + u.size ≤ start' := by
  rcases Nat.lt_or_gt_of_ne hij with hlt | hgt
  · exact .inl (hp'.apart hp hlt hw hs.ofScalars)
  · exact .inr (hp.apart hp' hgt hw hs.ofScalars)

/-- After a change to the bytes of one part, the whole is loaded with the new value of that part. -/
theorem loadAt_withPart (hp : t.HasPart i start u) (hw : t.WellLaid) (hs : t.Storable)
    (hfit : offset + t.size < sizeLimit) (hx : x.HasType t)
    (hload : m.loadAt buffer t offset = .ok x) (hx' : (x.withPart i y).HasType t)
    (hy : (x.withPart i y).At i y)
    (hch : ChangedOn buffer (offset + start) (offset + start + u.size) m m')
    (hpart : m'.loadAt buffer u (offset + start) = .ok y) :
    m'.loadAt buffer t offset = .ok (x.withPart i y) := by
  rw [loadAt_iff_parts hp hw hs hfit hx']
  intro j start' u' z hj hz
  by_cases hij : j = i
  · subst hij
    obtain ⟨rfl, rfl⟩ := hj.unique hp
    rwa [hz.unique hy]
  · obtain ⟨hwu, -, hin⟩ := hj.inside hw hs.ofScalars
    have hdisjoint := disjoint_parts hp hj hij hw hs
    have hagree : AgreeOn buffer (offset + start') (offset + start' + u'.size) m m' :=
      hch.agreeOn (by omega)
    rw [loadAt_congr u' _ hwu (hj.storable hs) (by omega) hagree]
    exact (loadAt_iff_parts hp hw hs hfit hx).1 hload j start' u' z hj (hz.of_withPart hij)

end Memory

end Wgsl
