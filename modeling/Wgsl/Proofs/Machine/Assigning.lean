import Wgsl.Proofs.Machine.Correspondence
import Wgsl.Proofs.Memory.Parts
import Wgsl.Proofs.Scope.Lookup

/-! # Assigning to variables and to buffers

A variable is assigned to inside its value, a buffer by a view of the part. Both leave the same
value.

* `TypeInfo.Admits`: the paths through a type, with the values that go to their ends.
* `Value.BelowColumn`: the paths that go on behind a column of a matrix.
* `Machine.writePlace_agrees`: the two assignments succeed with the same value, a path that goes on
  behind a column apart. There the variable refuses.
-/

namespace Wgsl
set_option autoImplicit false

open Number (Single)

/-! ## Values that replace each other -/

namespace Value

variable {old new x w v : Value} {t : TypeInfo} {kind : ScalarKind}

theorem OfKind.scalar (h : v.OfKind kind) : v.isScalar = true ∧ v.vectorLength? = none ∧
    v.scalarKind? = some (if kind = .f16 then .f32 else kind) := by
  cases kind <;> cases v <;> first | exact ⟨rfl, rfl, rfl⟩ | cases h

theorem OfKind.components (h : v.OfKind kind) : v.components = [v] := by
  cases kind <;> cases v <;> first | rfl | cases h

/-- A scalar replaces one of its kind as it is. -/
theorem coerceLike_ofKind (hold : old.OfKind kind) (hnew : new.OfKind kind) :
    coerceLike old new = .ok new := by
  obtain ⟨hscalar, hlength, hkind⟩ := hold.scalar
  obtain ⟨hscalar', hlength', hkind'⟩ := hnew.scalar
  simp only [coerceLike, inKindOf, hscalar, hlength, hkind, hscalar', hlength', hkind',
    Bool.and_self, if_true]
  rfl

/-- A value replaces one of its type as it is. -/
theorem coerceLike_hasType (ht : t.Storable) (hx : x.HasType t) (hw : w.HasType t) :
    coerceLike x w = .ok w := by
  obtain ⟨name, attributes, size, align, shape⟩ := t
  cases shape with
  | scalar kind => exact coerceLike_ofKind hx hw
  | handle => exact ht.elim
  | array element count stride =>
    cases x with
    | array items =>
      cases w with
      | array items' => rfl
      | _ => exact hw.elim
    | _ => exact hx.elim
  | struct key members first last =>
    cases x with
    | struct found fields =>
      cases w with
      | struct found' fields' => rfl
      | _ => exact hw.elim
    | _ => exact hx.elim
  | template base param access space =>
    obtain ⟨e, kind, rfl, hk, hbase⟩ := ht
    rcases hbase with hv | ⟨hm, -⟩ | ⟨rfl, -⟩
    · obtain ⟨n, hb⟩ := Option.isSome_iff_exists.1 hv
      obtain ⟨items, rfl, hlen, hitems⟩ := (hasType_vector hb hk).1 hx
      obtain ⟨items', rfl, hlen', hitems'⟩ := (hasType_vector hb hk).1 hw
      have hpos := (TypeInfo.vectorLength_bounds hb).1
      cases items with
      | nil => simp only [List.length_nil] at hlen; omega
      | cons a rest =>
        cases items' with
        | nil => simp only [List.length_nil] at hlen'; omega
        | cons b rest' =>
          have hkind := (hitems a List.mem_cons_self).scalar.2.2
          have hkind' := (hitems' b List.mem_cons_self).scalar.2.2
          simp only [coerceLike, vectorLength?, hlen, hlen', if_true, inKindOf, scalarKind?,
            firstScalarKind?, hkind, hkind']
          rfl
    · obtain ⟨⟨n, rows⟩, hb⟩ := Option.isSome_iff_exists.1 hm
      obtain ⟨columns, rfl, -⟩ := (hasType_matrix hb hk).1 hx
      obtain ⟨columns', rfl, -⟩ := (hasType_matrix hb hk).1 hw
      rfl
    · have hatomic : ∀ v : Value, v.HasTemplate "atomic" kind → v.OfKind kind := by
        intro v hv
        cases v with
        | vector items => cases hv.1
        | matrix columns =>
          obtain ⟨rows, hrows, -⟩ := hv
          cases hrows
        | _ => exact hv.2
      exact coerceLike_ofKind (hatomic x ((hasType_template hk).1 hx))
        (hatomic w ((hasType_template hk).1 hw))

end Value

/-! ## Swizzles -/

theorem mapM_eq_some {α β : Type} {f : α → Option β} {as : List α} {bs : List β} :
    as.mapM f = some bs ↔ as.map f = bs.map some := by
  induction as generalizing bs with
  | nil => cases bs <;> simp
  | cons a rest ih =>
    rw [List.mapM_cons]
    cases bs with
    | nil => simp [Option.bind_eq_some_iff]
    | cons b more => simp [Option.bind_eq_some_iff, ih]

/-- A swizzle has one to four letters. -/
theorem length_of_swizzleIndices? {s : String} {indices : List Nat}
    (h : swizzleIndices? s = some indices) : 0 < indices.length ∧ indices.length ≤ 4 := by
  unfold swizzleIndices? at h
  dsimp only at h
  split at h
  · cases h
  · rename_i hlen
    obtain ⟨set, -, hset⟩ := List.exists_of_findSome?_eq_some h
    have hsame := congrArg List.length (mapM_eq_some.1 hset)
    rw [List.length_map, List.length_map] at hsame
    simp only [Bool.or_eq_true, List.isEmpty_iff, decide_eq_true_eq, not_or] at hlen
    have hpos := List.length_pos_iff.2 hlen.1
    omega

/-- The letters of components select the components again. -/
theorem swizzleIndices?_swizzleOf {indices : List Nat} (hpos : 0 < indices.length)
    (hlen : indices.length ≤ 4) (hin : ∀ i ∈ indices, i < 4) :
    swizzleIndices? (Memory.swizzleOf indices) = some indices := by
  have hletters : (Memory.swizzleOf indices).toList =
      indices.map fun i => ['x', 'y', 'z'].getD i 'w' := String.toList_ofList
  have hfirst : (indices.map fun i => ['x', 'y', 'z'].getD i 'w').mapM
      (fun c => ['x', 'y', 'z', 'w'].idxOf? c) = some indices := by
    rw [mapM_eq_some, List.map_map]
    refine List.map_congr_left fun i hi => ?_
    have hletter : ∀ i < 4, ['x', 'y', 'z', 'w'].idxOf? (['x', 'y', 'z'].getD i 'w') = some i := by
      decide
    exact hletter i (hin i hi)
  have hguard : ((indices.map fun i => ['x', 'y', 'z'].getD i 'w').isEmpty ||
      decide (4 < (indices.map fun i => ['x', 'y', 'z'].getD i 'w').length)) = false := by
    cases indices with
    | nil => cases hpos
    | cons i rest => simpa using hlen
  simp only [swizzleIndices?, hletters, hguard, componentLetters, List.findSome?_cons, hfirst]
  rfl

namespace Value

variable {kind : ScalarKind} {items parts : List Value} {indices : List Nat}

/-- Scalars of the kind are put in the places of others, whatever the swizzle is written like. -/
theorem assignEach_ofKind {pairs : List (Nat × Value)} (hitems : ∀ item ∈ items, item.OfKind kind)
    (hpairs : ∀ p ∈ pairs, p.1 < items.length ∧ p.2.OfKind kind) :
    ∃ items', items'.length = items.length ∧ (∀ item ∈ items', item.OfKind kind) ∧
      ∀ s, (assignEach s pairs).apply items = (.ok (), items') := by
  induction pairs generalizing items with
  | nil => exact ⟨items, rfl, hitems, fun _ => rfl⟩
  | cons pair rest ih =>
    obtain ⟨i, new⟩ := pair
    obtain ⟨hi, hnew⟩ := hpairs _ List.mem_cons_self
    have hold := hitems _ (List.getElem_mem hi)
    have hset : ∀ item ∈ items.set i new, item.OfKind kind := fun item hitem =>
      (List.mem_or_eq_of_mem_set hitem).elim (hitems item) (· ▸ hnew)
    obtain ⟨items', hlen, hkind, hrun⟩ := ih hset fun p hp => by
      rw [List.length_set]
      exact hpairs p (List.mem_cons_of_mem _ hp)
    refine ⟨items', by rw [hlen, List.length_set], hkind, fun s => ?_⟩
    simp only [assignEach_apply, List.getElem?_eq_getElem hi, coerceLike_ofKind hold hnew, hrun]

theorem assignPath_swizzle (hitems : ∀ item ∈ items, item.OfKind kind)
    (hparts : ∀ part ∈ parts, part.OfKind kind) (hlen : parts.length = indices.length)
    (hin : ∀ i ∈ indices, i < items.length) :
    ∃ items', items'.length = items.length ∧ (∀ item ∈ items', item.OfKind kind) ∧
      ∀ s, swizzleIndices? s = some indices →
        (assignPath [.member s] (.vector parts)).apply (.vector items) =
          (.ok (), .vector items') := by
  have hpairs : ∀ p ∈ indices.zip parts, p.1 < items.length ∧ p.2.OfKind kind := fun p hp =>
    ⟨hin _ (List.of_mem_zip hp).1, hparts _ (List.of_mem_zip hp).2⟩
  obtain ⟨items', hlength, hkind, hrun⟩ := assignEach_ofKind hitems hpairs
  refine ⟨items', hlength, hkind, fun s hs => ?_⟩
  have hcount : (Value.vector parts).components.length = indices.length := hlen
  have happly : (assignSwizzle s (.vector parts)).apply items = (.ok (), items') := by
    simp only [assignSwizzle_apply, hs, hcount, if_true]
    exact hrun s
  rw [assignPath_vector, happly]

/-! ## Paths -/

/-- The path goes on behind a column of a matrix. -/
def BelowColumn : Value → List Access → Prop
  | .matrix _, _ :: _ :: _ => True
  | v, a :: rest => ∃ u, v.part a = .ok u ∧ BelowColumn u rest
  | _, [] => False

theorem not_belowColumn_nil (v : Value) : ¬ v.BelowColumn [] := by
  cases v <;> exact id

theorem belowColumn_cons {v : Value} (hv : ∀ columns, v ≠ .matrix columns) (a : Access)
    (rest : List Access) :
    v.BelowColumn (a :: rest) ↔ ∃ u, v.part a = .ok u ∧ u.BelowColumn rest := by
  cases v with
  | matrix columns => exact absurd rfl (hv columns)
  | _ => rw [BelowColumn]; nofun

/-- One access does not go on behind a column. -/
theorem not_belowColumn_single (v : Value) (a : Access) : ¬ v.BelowColumn [a] := by
  have hnext : v.BelowColumn [a] = ∃ u, v.part a = .ok u ∧ u.BelowColumn [] := by
    cases v <;> rw [BelowColumn] <;> nofun
  rw [hnext]
  rintro ⟨u, -, hu⟩
  exact u.not_belowColumn_nil hu

end Value

/-- The paths through a type, with the values that go to their ends: any number of accesses to
parts, and in the end perhaps a swizzle of several letters. -/
inductive TypeInfo.Admits : TypeInfo → List Access → Value → Prop where
  | whole {t : TypeInfo} {w : Value} (h : w.HasType t) : Admits t [] w
  | part {t u : TypeInfo} {a : Access} {i start : Nat} {rest : List Access} {w : Value}
      (hp : t.HasPart i start u) (ha : t.Names a i) (h : Admits u rest w) : Admits t (a :: rest) w
  | swizzle {name base s : String} {attributes : List Attribute} {size align n : Nat} {e : TypeInfo}
      {kind : ScalarKind} {access space : Option String} {indices : List Nat} {parts : List Value}
      (hb : Wgsl.vectorLength? base = some n) (hk : e.shape = .scalar kind)
      (hs : swizzleIndices? s = some indices) (hmore : 1 < indices.length)
      (hin : ∀ i ∈ indices, i < n) (hlen : parts.length = indices.length)
      (hparts : ∀ part ∈ parts, part.OfKind kind) :
      Admits (.mk name attributes size align (.template base (some e) access space)) [.member s]
        (.vector parts)

namespace Value

variable {x y y' w : Value} {a : Access} {rest : List Access}

/-- An assignment that succeeds in the slot of an access succeeds through the access. A single
letter is assigned to as a swizzle is, so one component has to go there. -/
theorem assignPath_slot (h : x.HasSlot a y) (hw : ∀ items, x = .vector items → w.components = [w])
    (hrun : (assignPath rest w).apply y = (.ok (), y')) :
    (assignPath (a :: rest) w).apply x = (.ok (), x.withSlot a y') := by
  have hwithin : (within a (assignPath rest w)).apply x = (.ok (), x.withSlot a y') := by
    rw [within_apply, slot_eq_ok.2 h]
    simp only [hrun]
  cases rest with
  | cons b rest => exact hwithin
  | nil =>
    cases h with
    | @letter items s i _ hs hi =>
      have hcomponents := hw items rfl
      rw [assignPath, replace_apply] at hrun
      cases hk : coerceLike y w with
      | error e =>
        rw [hk] at hrun
        cases hrun
      | ok kept =>
        rw [hk] at hrun
        cases hrun
        have happly : (assignSwizzle s w).apply items = (.ok (), items.set i y') := by
          simp only [assignSwizzle_apply, hs, hcomponents, List.length_singleton, if_true,
            List.zip_cons_cons, List.zip_nil_left, assignEach_apply, hi, hk]
          rfl
        rw [assignPath_vector, happly, withSlot, hs]
    | _ => exact hwithin

/-- An assignment that is refused in the slot of an access is refused through the access. -/
theorem assignPath_refused {b : Access} {e : RunError} (h : x.HasSlot a y)
    (hrun : (assignPath (b :: rest) w).apply y = (.error e, y)) :
    (assignPath (a :: b :: rest) w).apply x = (.error e, x) := by
  rw [assignPath, within_apply, slot_eq_ok.2 h]
  simp only [hrun, h.withSlot_self]
  intro hnil
  cases hnil

theorem assignPath_column {columns : List (List Single)} {i : Nat} {old column : List Single}
    (h : columns[i]? = some old) (hlen : column.length = old.length) :
    (assignPath [.index i] (.ofSingles column)).apply (.matrix columns) =
      (.ok (), .matrix (columns.set i column)) := by
  have hold : Value.element columns i = .ok old := element_eq_ok.2 ⟨Int.natCast_nonneg i, h⟩
  have happly : (assignColumn i (.ofSingles column)).apply columns =
      (.ok (), columns.set i column) := by
    simp only [assignColumn_apply, hold, numbers_ofSingles, hlen, if_true]
    rfl
  rw [assignPath_matrix, happly]

/-- No assignment goes on behind a column. -/
theorem assignPath_below_column (columns : List (List Single)) (a b : Access) (rest : List Access)
    (w : Value) : ∃ text, (assignPath (a :: b :: rest) w).apply (.matrix columns) =
      (.error (.mismatch text), .matrix columns) := by
  rw [assignPath, within_apply]
  · exact ⟨_, rfl⟩
  · intro h
    cases h

end Value

namespace Memory

open BufferView (Part)

variable {m : Memory} {v v' : BufferView} {a : Access} {rest : List Access} {w old changed : Value}
  {indices : List Nat}

/-- Several letters stay with the view of the vector. -/
theorem partAt_swizzle {base s : String} {param : Option TypeInfo} {access space : Option String}
    {n : Nat} (hshape : v.type.shape = .template base param access space)
    (hb : vectorLength? base = some n) (hs : swizzleIndices? s = some indices)
    (hmore : 1 < indices.length) (hin : ∀ i ∈ indices, i < n) :
    m.partAt v (.member s) = .ok (.swizzle v indices) := by
  have hany : (indices.any fun i => decide (n ≤ i)) = false := by
    simpa only [List.any_eq_false, decide_eq_true_eq, Nat.not_le] using hin
  rw [partAt, BufferView.member_of_vector hshape hb]
  simp only [BufferView.swizzled, hs, hany]
  obtain ⟨i, j, rest, rfl⟩ : ∃ i j rest, indices = i :: j :: rest := by
    rcases indices with _ | ⟨i, _ | ⟨j, rest⟩⟩
    · cases hmore
    · simp at hmore
    · exact ⟨i, j, rest, rfl⟩
  rfl

theorem writePath_view (h : m.partAt v a = .ok (.view v')) :
    (writePath v (a :: rest) w).apply m = (writePath v' rest w).apply m := by
  unfold writePath
  rw [Machine.get_bind_apply, Machine.get_bind_apply, resolve_cons, h]
  rfl

theorem resolve_swizzle (h : m.partAt v a = .ok (.swizzle v indices)) :
    m.resolve v [a] = .ok (.swizzle v indices []) := by
  rw [resolve_cons, h]
  rfl

theorem ok_bind_apply {σ α β : Type} (a : α) (f : α → Change σ β) (s : σ) :
    ((liftM (Except.ok a : Run α) : Change σ α) >>= f).apply s = (f a).apply s := rfl

/-- A swizzle is assigned to in a copy of the vector. -/
theorem writePath_swizzle (h : m.partAt v a = .ok (.swizzle v indices)) (hload : m.load v = .ok old)
    (hassign : (Value.assignPath [.member (swizzleOf indices)] w).apply old = (.ok (), changed)) :
    (writePath v [a] w).apply m = (store v changed).apply m := by
  unfold writePath
  rw [Machine.get_bind_apply, resolve_swizzle h, ok_bind_apply]
  dsimp only
  rw [hload, ok_bind_apply, hassign]

end Memory

theorem TypeInfo.Admits.of_scalar {e : TypeInfo} {kind : ScalarKind} {path : List Access}
    {w : Value} (h : e.Admits path w) (he : e.shape = .scalar kind) : w.OfKind kind := by
  cases h with
  | whole h => exact (Value.hasType_scalar he).1 h
  | part hp => cases hp <;> cases he
  | swizzle => cases he

/-! ## Both sides of an assignment -/

section

open Memory Value

variable {t : TypeInfo} {path : List Access} {w x : Value} {m : Memory} {data : Array UInt8}
  {buffer : BufferId} {offset : Nat}

/-- The components of a vector are scalars. -/
theorem Value.HasType.component_scalar {u : TypeInfo} {items : List Value} {i start : Nat}
    (hx : (Value.vector items).HasType t) (hp : t.HasPart i start u) (hs : t.Storable) :
    ∃ kind, u.shape = .scalar kind := by
  cases hp with
  | element => exact hx.elim
  | member => exact hx.elim
  | component =>
    obtain ⟨e, kind, he, hk, -⟩ := hs
    cases he
    exact ⟨kind, hk⟩
  | column hb =>
    obtain ⟨e, kind, he, hk, -⟩ := hs
    cases he
    obtain ⟨columns, hcolumns, -⟩ := (hasType_matrix hb hk).1 hx
    cases hcolumns

/-- A column of a matrix has a number, and is as long as what goes there. -/
theorem Value.HasType.column_of_matrix {u : TypeInfo} {columns : List (List Single)} {a : Access}
    {i start : Nat} (hx : (Value.matrix columns).HasType t) (hp : t.HasPart i start u)
    (hs : t.Storable) (ha : t.Names a i) (hw : w.HasType u) :
    ∃ old column, columns[i]? = some old ∧ a = .index i ∧ w = .ofSingles column ∧
      column.length = old.length := by
  cases hp with
  | element => exact hx.elim
  | member => exact hx.elim
  | component hb =>
    obtain ⟨e, kind, he, hk, -⟩ := hs
    cases he
    obtain ⟨items, hitems, -⟩ := (hasType_vector hb hk).1 hx
    cases hitems
  | column hb hi =>
    obtain ⟨e, kind, he, hk, hbase⟩ := hs
    cases he
    obtain ⟨_, ⟨⟩, rfl, hcolumns⟩ := (hasType_matrix hb hk).1 hx
    obtain ⟨column, rfl, hlen, -⟩ :=
      (hasType_column (TypeInfo.rows_bounds hb).2.2 hk (TypeInfo.floats_of_matrix hb hbase)).1 hw
    refine ⟨columns[i], column, List.getElem?_eq_getElem hi, ?_, rfl, ?_⟩
    · cases ha with
      | number => rfl
      | member hm => cases hm
      | letter hn => cases (TypeInfo.vectorLength?_eq_none hb).symm.trans hn
    · rw [hlen, (hcolumns _ (List.getElem_mem hi)).1]

/-- An assignment to a value leaves `x'`, or it goes on behind a column and is refused. -/
def Value.Outcome (x : Value) (path : List Access) (w x' : Value) : Prop :=
  (¬ x.BelowColumn path ∧ (assignPath path w).apply x = (.ok (), x')) ∨
    (x.BelowColumn path ∧ ∃ text, (assignPath path w).apply x = (.error (.mismatch text), x))

/-- One access more in front of a path. -/
theorem Value.Outcome.part {u : TypeInfo} {a : Access} {i start : Nat} {rest : List Access}
    {y y' : Value} (hx : x.HasType t) (hp : t.HasPart i start u) (hs : t.Storable)
    (ha : t.Names a i) (hat : x.At i y) (hy : y.HasType u) (hadmits : u.Admits rest w)
    (h : y.Outcome rest w y') :
    x.Outcome (a :: rest) w (x.withPart i y') := by
  obtain ⟨hslot, hput⟩ | ⟨columns, rfl⟩ := hat.hasSlot hx hp hs ha
  · have hmatrix : ∀ columns, x ≠ .matrix columns := by
      rintro columns rfl
      cases hslot
    have hbelow : x.BelowColumn (a :: rest) ↔ y.BelowColumn rest := by
      rw [belowColumn_cons hmatrix, hslot.part]
      exact ⟨fun ⟨u, hu, hrest⟩ => Except.ok.inj hu ▸ hrest, fun hrest => ⟨y, rfl, hrest⟩⟩
    obtain ⟨hnot, hrun⟩ | ⟨hrest, text, hrun⟩ := h
    · have hcomponent : ∀ items, x = .vector items → w.components = [w] := by
        rintro items rfl
        obtain ⟨kind, hk⟩ := hx.component_scalar hp hs
        exact (hadmits.of_scalar hk).components
      exact .inl ⟨mt hbelow.1 hnot, hput y' ▸ assignPath_slot hslot hcomponent hrun⟩
    · refine .inr ⟨hbelow.2 hrest, text, ?_⟩
      cases rest with
      | nil => exact absurd hrest y.not_belowColumn_nil
      | cons b rest => exact assignPath_refused hslot hrun
  · -- A column is no slot: it is assigned to as a whole, at the end of a path.
    cases rest with
    | cons b rest => exact .inr ⟨trivial, assignPath_below_column columns a b rest w⟩
    | nil =>
      have hwu : w.HasType u := by
        cases hadmits
        assumption
      have hsame : y' = w := by
        obtain ⟨-, hrun⟩ := h.resolve_right fun hbelow => y.not_belowColumn_nil hbelow.1
        rw [assignPath, replace_apply, coerceLike_hasType (hp.storable hs) hy hwu] at hrun
        cases hrun
        rfl
      subst hsame
      obtain ⟨old, column, hold, rfl, rfl, hlen⟩ := hx.column_of_matrix hp hs ha hwu
      rw [withPart_column]
      exact .inl ⟨not_belowColumn_single _ _, assignPath_column hold hlen⟩

/-- An assignment to a view succeeds, changes no byte outside the view, and leaves there what the
same assignment leaves of the value. -/
theorem writePath_outcome (h : t.Admits path w) (hw : t.WellLaid) (hs : t.Storable)
    (hfit : offset + t.size < sizeLimit) (hm : m.buffers[buffer]? = some data)
    (hsize : offset + t.size ≤ data.size) (hx : x.HasType t)
    (hload : m.loadAt buffer t offset = .ok x) :
    ∃ x' m', x'.HasType t ∧ (writePath ⟨buffer, offset, t⟩ path w).apply m = (.ok (), m') ∧
      ChangedOn buffer offset (offset + t.size) m m' ∧ m'.loadAt buffer t offset = .ok x' ∧
      x.Outcome path w x' := by
  -- Along the path the view and the value are narrowed together; the value of the part that comes
  -- back is put into the whole on both sides.
  induction h generalizing offset x with
  | @whole t w h =>
    obtain ⟨m', happly, hch, hloaded⟩ := stores_storeAt t offset w hw hs h hfit m data hm hsize
    refine ⟨w, m', h, happly, hch, hloaded, .inl ⟨by cases x <;> exact id, ?_⟩⟩
    rw [assignPath, replace_apply, coerceLike_hasType hs hx h]
  | @part t u a i start rest w hp ha h ih =>
    obtain ⟨hwu, -, hin⟩ := hp.inside hw hs.ofScalars
    obtain ⟨y, hat, hy⟩ := hx.at hp hs
    have hpart := (loadAt_iff_parts hp hw hs hfit hx).1 hload i start u y hp hat
    obtain ⟨y', m', hy', happly, hch, hloaded, houtcome⟩ :=
      ih hwu (hp.storable hs) (by omega) (by omega) hy hpart
    obtain ⟨hx', hat'⟩ := hx.withPart hp hs hy'
    refine ⟨x.withPart i y', m', hx', ?_, hch.mono (by omega) (by omega),
      loadAt_withPart hp hw hs hfit hx hload hx' hat' hch hloaded,
      houtcome.part hx hp hs ha hat hy h⟩
    rw [writePath_view (partAt_names hp ha hw hs hfit), happly]
  | @swizzle name base s attributes size align n e kind access space indices parts hb hk hletters
      hmore hin hlen hparts =>
    obtain ⟨items, rfl, hitems, hkind⟩ := (hasType_vector hb hk).1 hx
    obtain ⟨items', hlength, hkind', hrun⟩ := assignPath_swizzle hkind hparts hlen (hitems ▸ hin)
    have hx' : (Value.vector items').HasType (.mk name attributes size align
        (.template base (some e) access space)) :=
      (hasType_vector hb hk).2 ⟨items', rfl, hlength.trans hitems, hkind'⟩
    obtain ⟨m', happly, hch, hloaded⟩ := stores_storeAt _ offset _ hw hs hx' hfit m data hm hsize
    obtain ⟨hpos, hfour⟩ := length_of_swizzleIndices? hletters
    have hn4 := (TypeInfo.vectorLength_bounds hb).2
    have hagain := swizzleIndices?_swizzleOf hpos hfour fun i hi => (hin i hi).trans_le hn4
    refine ⟨_, m', hx', ?_, hch, hloaded, .inl ⟨not_belowColumn_single _ _, hrun s hletters⟩⟩
    have hpart : m.partAt ⟨buffer, offset, .mk name attributes size align
        (.template base (some e) access space)⟩ (.member s) = .ok (.swizzle _ indices) :=
      partAt_swizzle rfl hb hletters hmore hin
    rw [writePath_swizzle hpart hload (hrun _ hagain)]
    exact happly

end

namespace Machine

/-- In a module without layout errors, what is assigned to a part of a buffer and to the same part
of a variable of the same value leaves the same value in both. A variable refuses what goes on
behind a column of a matrix, and stays as it is. -/
theorem writePlace_agrees {p : Program} {queries : List Layouts.Query}
    {found : List (Option TypeInfo)} {l : Layouts}
    (hl : (Layouts.answers queries).run (.ofProgram p) = .ok (found, l)) (herr : l.errors = [])
    {v : BufferView} (hv : some v.type ∈ found) (hs : v.type.Storable)
    (hfit : v.offset + v.type.size < 2 ^ 32) {m : Machine} {data : Array UInt8}
    (hm : m.memory.buffers[v.buffer]? = some data) (hsize : v.offset + v.type.size ≤ data.size)
    {x : Value} (hx : x.HasType v.type) (hload : m.memory.load v = .ok x) {n : Machine}
    {scope : ScopeId} {name : String} (hslot : n.scopes.findIn? scope name = some (.value x))
    {path : List Access} {w : Value} (hpath : v.type.Admits path w) :
    ∃ x' m', x'.HasType v.type ∧ (writePlace ⟨.buffer v, path⟩ w).apply m = (.ok (), m') ∧
      m'.memory.load v = .ok x' ∧
      (¬ x.BelowColumn path → ∃ n',
        (writePlace ⟨.variable_ scope name, path⟩ w).apply n = (.ok (), n') ∧
          n'.scopes.findIn? scope name = some (.value x')) ∧
      (x.BelowColumn path → ∃ text n',
        (writePlace ⟨.variable_ scope name, path⟩ w).apply n = (.error (.mismatch text), n') ∧
          n'.scopes.findIn? scope name = some (.value x)) := by
  have hw := Layouts.wellLaid_of_answer hl herr hv
  obtain ⟨x', memory, hx', happly, -, hloaded, houtcome⟩ :=
    writePath_outcome hpath hw hs hfit hm hsize hx hload
  have hstep : (writePlace ⟨.buffer v, path⟩ w).apply m =
      (((Memory.writePath v path w).apply m.memory).1,
        { m with memory := ((Memory.writePath v path w).apply m.memory).2 }) := rfl
  have hbuffer : (writePlace ⟨.buffer v, path⟩ w).apply m = (.ok (), { m with memory }) := by
    rw [hstep, happly]
  have hbind : ∀ y, (n.bind scope name (.value y)).scopes.findIn? scope name = some (.value y) :=
    fun y => ScopeArena.findIn?_insert_self (ScopeArena.lt_depth_of_findIn? hslot)
  refine ⟨x', _, hx', hbuffer, hloaded, fun hnot => ?_, fun hbelow => ?_⟩
  · obtain ⟨-, hrun⟩ := houtcome.resolve_right fun h => hnot h.1
    refine ⟨_, ?_, hbind x'⟩
    rw [writePlace_value hslot, hrun]
  · obtain ⟨-, text, hrun⟩ := houtcome.resolve_left fun h => h.1 hbelow
    refine ⟨text, _, ?_, hbind x⟩
    rw [writePlace_value hslot, hrun]

/-- A vector and an array. -/
def cellDecl : StructDecl :=
  { name := "Cell"
    members := [⟨"pos", .template 1 [] "vec3" (some (.named 2 [] "f32")) none none, []⟩,
      ⟨"hits", .array 3 [] (some (.named 4 [] "u32")) (some 2) none, []⟩]
    attributes := []
    startLine := 1
    endLine := 4 }

/-- The layout of a cell. -/
def cellType : TypeInfo :=
  .mk "Cell" [] 32 16 (.struct (.declared "Cell")
    [.mk "pos" (.mk "vec3<f32>" [] 12 16
        (.template "vec3" (some (.scalar .f32)) none none)) 0 12 16,
      .mk "hits" (.mk "array<u32, 2>" [] 8 4 (.array (.scalar .u32) (some 2) 4)) 12 8 4] 1 4)

/-- A cell of zeros. -/
def cellValue : Value :=
  .struct "Cell" [("pos", .vector [.f32 .zero, .f32 .zero, .f32 .zero]),
    ("hits", .array [.u32 0, .u32 0])]

/-- A variable that holds a cell of zeros, and a buffer of one. -/
def cellMachine : Machine :=
  { (default : Machine) with
    memory := { buffers := #[Array.replicate 32 0] }
    scopes := ScopeArena.new.insert ScopeArena.root "cell" (.value cellValue) }

/-- Two components of the vector, in the other order. -/
theorem writePlace_agrees_cell :
    let path : List Access := [.member "pos", .member "zx"]
    let w : Value := .vector [.f32 .one, .f32 .zero]
    ∃ x' m' n', (writePlace ⟨.buffer ⟨0, 0, cellType⟩, path⟩ w).apply cellMachine = (.ok (), m') ∧
      m'.memory.load ⟨0, 0, cellType⟩ = .ok x' ∧
      (writePlace ⟨.variable_ ScopeArena.root "cell", path⟩ w).apply cellMachine = (.ok (), n') ∧
      n'.scopes.findIn? ScopeArena.root "cell" = some (.value x') := by
  intro path w
  have hs : cellType.Storable :=
    ⟨by decide, ⟨_, .f32, rfl, rfl, .inl rfl⟩, ⟨trivial, rfl, by decide⟩, trivial⟩
  have hx : cellValue.HasType cellType := by
    have hfloats : ∀ item ∈ [Value.f32 .zero, .f32 .zero, .f32 .zero], item.OfKind .f32 := by
      simp [Value.OfKind]
    have hwords : ∀ item ∈ [Value.u32 0, .u32 0], item.HasType (.scalar .u32) := by
      simp [Value.hasType_scalar, Value.OfKind, TypeInfo.scalar, TypeInfo.shape]
    exact ⟨rfl, rfl, ⟨.f32, rfl, rfl, hfloats⟩, rfl, ⟨rfl, hwords⟩, trivial⟩
  have hpath : cellType.Admits path w := by
    refine @TypeInfo.Admits.part _ _ _ 0 _ _ _ (.member rfl) (.member rfl rfl rfl) ?_
    exact .swizzle rfl rfl rfl (by decide) (by decide) rfl (by simp [Value.OfKind])
  have hcolumn : ¬ cellValue.BelowColumn path := by
    rintro ⟨u, -, hu⟩
    exact u.not_belowColumn_single _ hu
  obtain ⟨l, hl, herr⟩ : ∃ l,
      (Layouts.answers [.named "Cell"]).run (.ofProgram ⟨[.struct cellDecl]⟩) =
        .ok ([some cellType], l) ∧ l.errors = [] := ⟨_, rfl, rfl⟩
  obtain ⟨x', m', -, hbuffer, hloaded, hvariable, -⟩ :=
    @writePlace_agrees _ _ _ l hl herr ⟨0, 0, cellType⟩ (List.mem_singleton_self _) hs (by decide)
      cellMachine _ rfl (by decide) cellValue hx rfl cellMachine ScopeArena.root "cell" rfl path w
      hpath
  obtain ⟨n', hrun, hslot⟩ := hvariable hcolumn
  exact ⟨x', m', n', hbuffer, hloaded, hrun, hslot⟩

/-- A matrix of floats. -/
def turnType : TypeInfo :=
  .mk "mat2x2<f32>" [] 16 8 (.template "mat2x2" (some (.scalar .f32)) none none)

/-- A variable that holds a matrix of zeros, and a buffer of one. -/
def turnMachine : Machine :=
  { (default : Machine) with
    memory := { buffers := #[Array.replicate 16 0] }
    scopes := ScopeArena.new.insert ScopeArena.root "turn"
      (.value (.matrix [[.zero, .zero], [.zero, .zero]])) }

/-- The first component of the second column: the buffer takes it, the variable does not. -/
theorem writePlace_component :
    let turn : AliasDecl :=
      ⟨"Turn", .template 1 [] "mat2x2" (some (.named 2 [] "f32")) none none, 1⟩
    let x : Value := .matrix [[.zero, .zero], [.zero, .zero]]
    let path : List Access := [.index 1, .index 0]
    (∃ l, (Layouts.answers [.named "Turn"]).run (.ofProgram ⟨[.alias_ turn]⟩) =
      .ok ([some turnType], l) ∧ l.errors = []) ∧
    x.HasType turnType ∧ turnType.Admits path (.f32 .one) ∧
    turnMachine.memory.load ⟨0, 0, turnType⟩ = .ok x ∧
    turnMachine.scopes.findIn? ScopeArena.root "turn" = some (.value x) ∧
    (∃ m', (writePlace ⟨.buffer ⟨0, 0, turnType⟩, path⟩ (.f32 .one)).apply turnMachine =
      (.ok (), m')) ∧
    ∀ m', (writePlace ⟨.variable_ ScopeArena.root "turn", path⟩ (.f32 .one)).apply turnMachine ≠
      (.ok (), m') := by
  intro turn x path
  refine ⟨⟨_, rfl, rfl⟩, ?_, ?_, rfl, rfl, ⟨_, rfl⟩, ?_⟩
  · exact ⟨.f32, rfl, 2, rfl, by simp [Value.OfKind]⟩
  · refine @TypeInfo.Admits.part _ _ _ 1 _ _ _ (.column rfl (by decide)) (.number rfl) ?_
    exact @TypeInfo.Admits.part _ _ _ 0 _ _ _ (.component rfl (by decide)) (.number rfl)
      (.whole trivial)
  · intro m' h
    cases congrArg Prod.fst h

end Machine

end Wgsl
