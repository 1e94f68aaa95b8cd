import Wgsl.Proofs.Layout.Extent
import Wgsl.Proofs.Memory.Scalars

/-! # Storing and loading

A value that is stored through a view is loaded again through the same view.

* `TypeInfo.Storable`: the types that buffers hold, each part with bytes of its own.
* `Value.HasType`: the values of exactly the shape of a type.
* `Memory.loadAt_congr`: a load reads no byte outside its type.
* `Memory.stores_storeAt`: a store of a value of the type succeeds, writes no byte outside the type,
  and the value is loaded afterwards.

Storing and loading are two recursions over the type. They meet in the offsets of the parts, so each
is first brought to the form in which every part stands at its offset (the section on parts); the two
inductions over types then need the layout alone.
-/

namespace Wgsl
set_option autoImplicit false

open Number (Single)

/-! ## Storable types and their values -/

mutual

/-- A type made of scalars that lie apart from each other in a buffer. -/
def TypeInfo.Storable : TypeInfo → Prop
  | .mk _ _ _ _ shape => TypeShape.Storable shape

def TypeShape.Storable : TypeShape → Prop
  | .scalar _ => True
  | .handle => False
  | .array element count stride =>
    TypeInfo.Storable element ∧ count.isSome ∧ roundUp element.align element.size ≤ stride
  | .struct _ members _ _ => (members.map MemberInfo.name).Nodup ∧ MemberInfo.Storable members
  | .template base param _ _ => ∃ e kind, param = some e ∧ e.shape = .scalar kind ∧
    ((vectorLength? base).isSome ∨ ((matrixShape? base).isSome ∧ (kind = .f32 ∨ kind = .f16)) ∨
      (base = "atomic" ∧ (kind = .i32 ∨ kind = .u32)))

def MemberInfo.Storable : List MemberInfo → Prop
  | [] => True
  | .mk _ type _ _ _ :: rest => TypeInfo.Storable type ∧ MemberInfo.Storable rest

end

mutual

theorem TypeInfo.Storable.ofScalars : ∀ {t : TypeInfo}, t.Storable → t.OfScalars
  | .mk _ _ _ _ (.scalar _), _ => trivial
  | .mk _ _ _ _ .handle, h => h.elim
  | .mk _ _ _ _ (.array _ _ _), ⟨he, hrest⟩ => ⟨he.ofScalars, hrest⟩
  | .mk _ _ _ _ (.struct _ _ _ _), ⟨_, hm⟩ => MemberInfo.Storable.ofScalars hm
  | .mk _ _ _ _ (.template _ _ _ _), h => h

theorem MemberInfo.Storable.ofScalars : ∀ {members : List MemberInfo},
    MemberInfo.Storable members → MemberInfo.OfScalars members
  | [], _ => trivial
  | .mk _ _ _ _ _ :: _, ⟨ht, hrest⟩ => ⟨ht.ofScalars, MemberInfo.Storable.ofScalars hrest⟩

end

/-- The value is a vector, a matrix or an atomic of the generator, with components of the kind. -/
def Value.HasTemplate (base : String) (kind : ScalarKind) : Value → Prop
  | .matrix columns => ∃ rows, matrixShape? base = some (columns.length, rows) ∧
    ∀ column ∈ columns, column.length = rows ∧ ∀ x ∈ column, (Value.f32 x).OfKind kind
  | .vector items => Wgsl.vectorLength? base = some items.length ∧ ∀ item ∈ items, item.OfKind kind
  | v => base = "atomic" ∧ v.OfKind kind

mutual

/-- The value has exactly the shape of the type. -/
def Value.HasType : TypeInfo → Value → Prop
  | .mk name _ _ _ shape, v => Value.HasShape name shape v

def Value.HasShape (name : String) : TypeShape → Value → Prop
  | .scalar kind, v => v.OfKind kind
  | .array element count _, .array items =>
    count = some items.length ∧ ∀ item ∈ items, Value.HasType element item
  | .struct _ members _ _, .struct found fields => found = name ∧ Value.HaveTypes members fields
  | .template base param _ _, v =>
    ∃ kind, TypeInfo.paramScalarKind? param = some kind ∧ v.HasTemplate base kind
  | _, _ => False

/-- The fields are those of the members, in the same order. -/
def Value.HaveTypes : List MemberInfo → List (String × Value) → Prop
  | [], [] => True
  | .mk name type _ _ _ :: members, (found, v) :: fields =>
    found = name ∧ Value.HasType type v ∧ Value.HaveTypes members fields
  | _, _ => False

end

/-! ## Views of parts -/

namespace BufferView

theorem shifted_ok {v : BufferView} {offset : Nat} (type : TypeInfo)
    (h : v.offset + offset < sizeLimit) :
    v.shifted offset type = .ok ⟨v.buffer, v.offset + offset, type⟩ := by
  rw [shifted, checkedSize_of_lt h]
  rfl

theorem element_ok {v : BufferView} {i count : Nat} {e : Elements}
    (he : v.type.elements count = .ok e) (hi : i < e.count)
    (h : v.offset + i * e.stride < sizeLimit) :
    v.element i count = .ok ⟨v.buffer, v.offset + i * e.stride, e.type⟩ := by
  have hneg : ¬((i : Int) < 0 ∨ e.count ≤ (i : Int).toNat) := by omega
  have hsize : checkedSize ((i : Int).toNat * e.stride) = some (i * e.stride) :=
    checkedSize_of_lt (by simp only [Int.toNat_natCast]; omega)
  simp only [element, he, bind, Except.bind, hneg, if_false, hsize]
  exact shifted_ok e.type h

end BufferView

namespace TypeInfo

theorem matrixShape?_eq_none {base : String} {length : Nat} (h : Wgsl.vectorLength? base = some length) :
    Wgsl.matrixShape? base = none := by
  unfold Wgsl.vectorLength? at h
  split at h <;> first | rfl | cases h

theorem paramScalarKind?_of_scalar {e : TypeInfo} {kind : ScalarKind} (h : e.shape = .scalar kind) :
    paramScalarKind? (some e) = some kind := by
  obtain ⟨name, attributes, size, align, shape⟩ := e
  simp only [TypeInfo.shape] at h
  subst h
  rfl

theorem elements_vector {name base : String} {attributes : List Attribute} {size align : Nat}
    {e : TypeInfo} {access space : Option String} {length : Nat}
    (h : Wgsl.vectorLength? base = some length) (count : Nat) :
    (TypeInfo.mk name attributes size align (.template base (some e) access space)).elements count =
      .ok ⟨e, e.size, length⟩ := by
  simp only [elements, shape, matrixShape?, vectorLength?, base?, param?, Option.bind_some,
    matrixShape?_eq_none h, h]
  rfl

/-- The type of the columns of a matrix. -/
def columnOf (rows : Nat) (e : TypeInfo) : TypeInfo :=
  .mk ("vec" ++ toString rows ++ "<" ++ e.name ++ ">") [] (rows * e.size)
    ((if rows = 2 then 2 else 4) * e.size) (.template ("vec" ++ toString rows) (some e) none none)

theorem elements_matrix {name base : String} {attributes : List Attribute} {size align : Nat}
    {e : TypeInfo} {access space : Option String} {columns rows : Nat}
    (h : Wgsl.matrixShape? base = some (columns, rows)) (count : Nat) :
    (TypeInfo.mk name attributes size align (.template base (some e) access space)).elements count =
      .ok ⟨columnOf rows e, align, columns⟩ := by
  simp only [elements, shape, matrixShape?, base?, Option.bind_some, h]
  rfl

theorem rows_bounds {base : String} {columns rows : Nat}
    (h : Wgsl.matrixShape? base = some (columns, rows)) :
    2 ≤ rows ∧ rows ≤ 4 ∧ Wgsl.vectorLength? ("vec" ++ toString rows) = some rows := by
  unfold Wgsl.matrixShape? at h
  split at h <;> cases h <;> exact ⟨by decide, by decide, by decide⟩

end TypeInfo

/-! ## Values one after another -/

namespace Run

variable {α : Type}

theorem values_congr {f g : Nat → Run α} {count : Nat} (h : ∀ i < count, f i = g i) :
    values count f = values count g := by
  have from_ : ∀ count start found, (∀ i, start ≤ i → i < start + count → f i = g i) →
      valuesFrom f count start found = valuesFrom g count start found := by
    intro count
    induction count with
    | zero => exact fun _ _ _ => rfl
    | succ count ih =>
      intro start found hs
      rw [valuesFrom, valuesFrom, hs start (le_refl _) (by omega)]
      congr 1
      funext a
      exact ih (start + 1) (a :: found) fun i h1 h2 => hs i (by omega) (by omega)
  exact from_ count 0 [] fun i _ h2 => h i (by omega)

theorem values_eq_ok {f : Nat → Run α} {xs : List α}
    (h : ∀ i x, xs[i]? = some x → f i = .ok x) : values xs.length f = .ok xs := by
  have from_ : ∀ (xs : List α) start found, (∀ i x, xs[i]? = some x → f (start + i) = .ok x) →
      valuesFrom f xs.length start found = .ok (found.reverse ++ xs) := by
    intro xs
    induction xs with
    | nil =>
      intro start found _
      rw [List.length_nil, valuesFrom, List.append_nil]
      rfl
    | cons x rest ih =>
      intro start found hs
      have h0 : f start = .ok x := hs 0 x rfl
      have hrest := ih (start + 1) (x :: found) fun i y hy => by
        have e : start + 1 + i = start + (i + 1) := by omega
        rw [e]
        exact hs (i + 1) y (by rw [List.getElem?_cons_succ]; exact hy)
      rw [List.length_cons, valuesFrom, h0]
      show valuesFrom f rest.length (start + 1) (x :: found) = _
      rw [hrest, List.reverse_cons, List.append_assoc, List.singleton_append]
  have h0 := from_ xs 0 [] fun i x hx => by rw [Nat.zero_add]; exact h i x hx
  exact h0

end Run

/-! ## Loading parts -/

namespace Memory

theorem loadAt_scalar (m : Memory) (buffer offset : Nat) {e : TypeInfo} {kind : ScalarKind}
    (h : e.shape = .scalar kind) : m.loadAt buffer e offset = m.loadScalar kind buffer offset := by
  obtain ⟨name, attributes, size, align, shape⟩ := e
  simp only [TypeInfo.shape] at h
  subst h
  rw [loadAt, loadShape]

/-- The components of a vector, each at its offset. -/
theorem loadComponents_eq (m : Memory) {v : BufferView} {e : TypeInfo} {kind : ScalarKind}
    {length : Nat} (he : e.shape = .scalar kind) (hv : v.type.elements 0 = .ok ⟨e, e.size, length⟩)
    (hfit : v.offset + length * e.size < sizeLimit) :
    m.loadComponents length v (some e) =
      Run.values length fun i => m.loadScalar kind v.buffer (v.offset + i * e.size) := by
  rw [loadComponents]
  apply Run.values_congr
  intro i hi
  have hmul : i * e.size ≤ length * e.size := Nat.mul_le_mul_right _ (by omega)
  rw [BufferView.element_ok hv hi (by dsimp only; omega)]
  exact loadAt_scalar m v.buffer _ he

/-- The elements of an array, each at its offset. -/
theorem loadAt_array (m : Memory) {buffer offset size align n stride : Nat} {name : String}
    {attributes : List Attribute} {element : TypeInfo} (hfit : offset + n * stride < sizeLimit) :
    m.loadAt buffer (.mk name attributes size align (.array element (some n) stride)) offset =
      Value.array <$> Run.values n fun i => m.loadAt buffer element (offset + i * stride) := by
  rw [loadAt, loadShape]
  have hcount : m.runtimeCount ⟨buffer, offset,
      .mk name attributes size align (.array element (some n) stride)⟩ = n := rfl
  rw [hcount]
  congr 1
  apply Run.values_congr
  intro i hi
  have hmul : i * stride ≤ n * stride := Nat.mul_le_mul_right _ (by omega)
  have hv : (TypeInfo.mk name attributes size align (.array element (some n) stride)).elements n =
      .ok ⟨element, stride, n⟩ := rfl
  rw [BufferView.element_ok hv hi (by dsimp only; omega)]
  rfl

theorem loadAt_vector (m : Memory) {buffer offset size align length : Nat} {name base : String}
    {attributes : List Attribute} {access space : Option String} {e : TypeInfo} {kind : ScalarKind}
    (hb : vectorLength? base = some length) (he : e.shape = .scalar kind)
    (hfit : offset + length * e.size < sizeLimit) :
    m.loadAt buffer (.mk name attributes size align (.template base (some e) access space)) offset =
      Value.vector <$> Run.values length fun i =>
        m.loadScalar kind buffer (offset + i * e.size) := by
  rw [loadAt, loadShape, TypeInfo.matrixShape?_eq_none hb]
  simp only [hb]
  rw [loadComponents_eq m he (TypeInfo.elements_vector hb 0) hfit]

/-- What a column of a matrix is loaded as, `rows` components from a byte on. -/
def loadColumn (m : Memory) (kind : ScalarKind) (buffer : BufferId) (rows size start : Nat) :
    Run (List Single) :=
  (Run.values rows fun i => m.loadScalar kind buffer (start + i * size)) >>= fun items =>
    items.mapM Value.number

theorem loadAt_matrix (m : Memory) {buffer offset size align columns rows : Nat} {name base : String}
    {attributes : List Attribute} {access space : Option String} {e : TypeInfo} {kind : ScalarKind}
    (hb : matrixShape? base = some (columns, rows)) (he : e.shape = .scalar kind)
    (hcol : rows * e.size ≤ align) (hfit : offset + columns * align < sizeLimit) :
    m.loadAt buffer (.mk name attributes size align (.template base (some e) access space)) offset =
      Value.matrix <$> Run.values columns fun c =>
        m.loadColumn kind buffer rows e.size (offset + c * align) := by
  rw [loadAt, loadShape, hb]
  simp only
  congr 1
  apply Run.values_congr
  intro c hc
  have hmul : (c + 1) * align ≤ columns * align := Nat.mul_le_mul_right _ (by omega)
  rw [Nat.succ_mul] at hmul
  obtain ⟨-, -, hrows⟩ := TypeInfo.rows_bounds hb
  rw [BufferView.element_ok (TypeInfo.elements_matrix hb 0) hc (by dsimp only; omega)]
  simp only [bind, Except.bind]
  rw [loadComponents_eq m he (TypeInfo.elements_vector hrows 0) (by dsimp only; omega)]
  rfl

theorem loadAt_atomic (m : Memory) {buffer offset size align : Nat} {name : String}
    {attributes : List Attribute} {access space : Option String} {e : TypeInfo} {kind : ScalarKind}
    (he : e.shape = .scalar kind) :
    m.loadAt buffer (.mk name attributes size align (.template "atomic" (some e) access space))
      offset = m.loadScalar kind buffer offset := by
  rw [loadAt, loadShape, TypeInfo.paramScalarKind?_of_scalar he]
  rfl

/-- The members of a structure, each at its offset. -/
theorem loadMembers_cons (m : Memory) {v : BufferView} {name : String} {type : TypeInfo}
    {offset size align : Nat} {rest : List MemberInfo} (h : v.offset + offset < sizeLimit) :
    m.loadMembers v (.mk name type offset size align :: rest) =
      (m.loadAt v.buffer type (v.offset + offset) >>= fun value =>
        m.loadMembers v rest >>= fun values => pure ((name, value) :: values)) := by
  rw [loadMembers, BufferView.shifted_ok type h]
  rfl

end Memory

/-! ## What a load reads -/

namespace Memory

/-- Two memories whose buffers have the same length and the same bytes from `lo` up to `hi`. -/
def AgreeOn (buffer lo hi : Nat) (m m' : Memory) : Prop :=
  ∃ data data', m.buffers[buffer]? = some data ∧ m'.buffers[buffer]? = some data' ∧
    data'.size = data.size ∧ ∀ i, lo ≤ i → i < hi → data'[i]? = data[i]?

theorem AgreeOn.mono {buffer lo hi lo' hi' : Nat} {m m' : Memory} (h : AgreeOn buffer lo hi m m')
    (hlo : lo ≤ lo') (hhi : hi' ≤ hi) : AgreeOn buffer lo' hi' m m' := by
  obtain ⟨data, data', h1, h2, h3, h4⟩ := h
  exact ⟨data, data', h1, h2, h3, fun i hi hi' => h4 i (by omega) (by omega)⟩

variable {buffer : BufferId} {m m' : Memory}

theorem loadScalar_congr {kind : ScalarKind} {start : Nat}
    (h : AgreeOn buffer start (start + kind.size) m m') :
    m'.loadScalar kind buffer start = m.loadScalar kind buffer start := by
  obtain ⟨data, data', hd, hd', hs, hb⟩ := h
  simp only [loadScalar, checkRange, hd, hd', hs, Option.getD_some]
  by_cases hr : start + kind.size ≤ data.size
  · rw [if_pos hr, Bytes.read_congr hr hs hb]
  · rw [if_neg hr]
    rfl

/-- A part that ends inside the whole. -/
theorem part_fits {i n stride size : Nat} (hi : i < n) (hs : size ≤ stride) :
    i * stride + size ≤ n * stride := by
  have h : (i + 1) * stride ≤ n * stride := Nat.mul_le_mul_right _ hi
  rw [Nat.succ_mul] at h
  omega

theorem loadColumn_congr {kind : ScalarKind} {rows size start : Nat} (hs : size = kind.size)
    (h : AgreeOn buffer start (start + rows * size) m m') :
    m'.loadColumn kind buffer rows size start = m.loadColumn kind buffer rows size start := by
  unfold loadColumn
  congr 1
  apply Run.values_congr
  intro i hi
  have hpart := part_fits hi (le_refl size)
  exact loadScalar_congr (h.mono (by omega) (by omega))

mutual

/-- A load reads no byte outside its type. -/
theorem loadAt_congr : ∀ (t : TypeInfo) (offset : Nat), t.WellLaid → t.Storable →
    offset + t.size < sizeLimit → AgreeOn buffer offset (offset + t.size) m m' →
    m'.loadAt buffer t offset = m.loadAt buffer t offset
  | .mk name attributes size align (.scalar kind), offset, hw, _, _, h => by
    obtain ⟨hsize, -⟩ := hw
    simp only [TypeInfo.size] at h
    subst hsize
    rw [loadAt_scalar m' _ _ rfl, loadAt_scalar m _ _ rfl]
    exact loadScalar_congr h
  | .mk name attributes size align .handle, offset, _, hs, _, _ => hs.elim
  | .mk name attributes size align (.array element count stride), offset, hw, hs, hfit, h => by
    obtain ⟨hse, hsome, hstride⟩ := hs
    obtain ⟨n, rfl⟩ := Option.isSome_iff_exists.mp hsome
    obtain ⟨hwe, -, hsize⟩ := hw
    obtain ⟨hn, -⟩ := hsize n rfl
    simp only [TypeInfo.size] at h hfit
    subst hn
    rw [loadAt_array m' hfit, loadAt_array m hfit]
    congr 1
    apply Run.values_congr
    intro i hi
    have hpart := part_fits hi (TypeInfo.size_le_stride hwe hse.ofScalars hstride)
    exact loadAt_congr element _ hwe hse (by omega) (h.mono (by omega) (by omega))
  | .mk name attributes size align (.struct key members first last), offset, hw, hs, hfit, h => by
    obtain ⟨finish, hp, hround, -⟩ := hw
    simp only [TypeInfo.size] at h hfit
    have hle := le_of_checkedRoundUp hround
    rw [loadAt, loadAt, loadShape, loadShape]
    congr 1
    exact loadMembers_congr members ⟨buffer, offset, _⟩ 0 finish rfl hp hs.2 (by dsimp only; omega)
      (h.mono (by dsimp only; omega) (by dsimp only; omega))
  | .mk name attributes size align (.template base param access space), offset, hw, hs, hfit, h => by
    obtain ⟨e, kind, rfl, he, hkind⟩ := hs
    simp only [TypeInfo.size] at h hfit
    have hes := TypeInfo.size_of_scalar he hw.1
    rcases hkind with hv | ⟨hm, -⟩ | ⟨rfl, -⟩
    · obtain ⟨n, hb⟩ := Option.isSome_iff_exists.mp hv
      have hsize := TypeInfo.size_of_vector hb he hw
      subst hsize
      rw [loadAt_vector m' hb he hfit, loadAt_vector m hb he hfit]
      congr 1
      apply Run.values_congr
      intro i hi
      have hpart := part_fits hi (le_refl e.size)
      exact loadScalar_congr (h.mono (by omega) (by omega))
    · obtain ⟨⟨columns, rows⟩, hb⟩ := Option.isSome_iff_exists.mp hm
      obtain ⟨hsize, hcol⟩ := TypeInfo.size_of_matrix hb he hw
      subst hsize
      rw [loadAt_matrix m' hb he hcol hfit, loadAt_matrix m hb he hcol hfit]
      congr 1
      apply Run.values_congr
      intro c hc
      have hpart := part_fits hc hcol
      exact loadColumn_congr hes (h.mono (by omega) (by omega))
    · obtain ⟨hsize, -⟩ := hw.2.2.2 e rfl rfl
      rw [hsize, hes] at h
      rw [loadAt_atomic m' he, loadAt_atomic m he]
      exact loadScalar_congr h

/-- The members from the byte `next` on read no byte in front of it. -/
theorem loadMembers_congr : ∀ (members : List MemberInfo) (v : BufferView) (next finish : Nat),
    v.buffer = buffer → MemberInfo.Placed members next finish → MemberInfo.Storable members →
    v.offset + finish < sizeLimit → AgreeOn buffer (v.offset + next) (v.offset + finish) m m' →
    m'.loadMembers v members = m.loadMembers v members
  | [], v, next, finish, _, _, _, _, _ => by rw [loadMembers, loadMembers]
  | .mk name type offset size align :: rest, v, next, finish, hb, hp, hs, hfit, h => by
    obtain ⟨hw, -, hsize, hround, -, hrest⟩ := hp
    obtain ⟨hst, hsr⟩ := hs
    have hnext := le_of_checkedRoundUp hround
    have hend := hrest.le
    rw [loadMembers_cons m' (by omega), loadMembers_cons m (by omega), hb,
      loadAt_congr type _ hw hst (by omega) (h.mono (by omega) (by omega)),
      loadMembers_congr rest v _ finish hb hrest hsr hfit (h.mono (by omega) (le_refl _))]

end

/-! ## What a store writes -/

/-- The memory after a change that wrote no byte outside `lo` up to `hi` of one buffer. -/
def ChangedOn (buffer lo hi : Nat) (m m' : Memory) : Prop :=
  ∃ data data', m.buffers[buffer]? = some data ∧ m'.buffers[buffer]? = some data' ∧
    data'.size = data.size ∧ ∀ i, i < lo ∨ hi ≤ i → data'[i]? = data[i]?

theorem ChangedOn.agreeOn {lo hi lo' hi' : Nat} (h : ChangedOn buffer lo hi m m')
    (hd : hi' ≤ lo ∨ hi ≤ lo') : AgreeOn buffer lo' hi' m m' := by
  obtain ⟨data, data', h1, h2, h3, h4⟩ := h
  exact ⟨data, data', h1, h2, h3, fun i hi hi' => h4 i (by omega)⟩

/-- Wherever the buffer reaches up to `hi`, the change succeeds, writes nothing outside `lo` up to
`hi`, and `post` holds afterwards. -/
def Stores (buffer lo hi : Nat) (c : Change Memory Unit) (post : Memory → Prop) : Prop :=
  ∀ m data, m.buffers[buffer]? = some data → hi ≤ data.size →
    ∃ m', c.apply m = (.ok (), m') ∧ ChangedOn buffer lo hi m m' ∧ post m'

/-- What holds of a memory by the bytes from `lo` up to `hi` alone. -/
def Local (buffer lo hi : Nat) (post : Memory → Prop) : Prop :=
  ∀ m m', AgreeOn buffer lo hi m m' → post m → post m'

theorem Local.mono {lo hi lo' hi' : Nat} {post : Memory → Prop} (h : Local buffer lo hi post)
    (hlo : lo' ≤ lo) (hhi : hi ≤ hi') : Local buffer lo' hi' post :=
  fun m m' ha hp => h m m' (ha.mono hlo hhi) hp

theorem apply_bind_ok {α β : Type} {c : Change Memory α} {f : α → Change Memory β} {a : α}
    (h : c.apply m = (.ok a, m')) : (c >>= f).apply m = (f a).apply m' := by
  simp only [Change.apply, ExceptT.run_bind, StateT.run_bind] at h ⊢
  rw [h]
  rfl

theorem Stores.mono {lo hi lo' hi' : Nat} {c : Change Memory Unit} {post : Memory → Prop}
    (h : Stores buffer lo hi c post) (hlo : lo' ≤ lo) (hhi : hi ≤ hi') :
    Stores buffer lo' hi' c post := by
  intro m data hm hsize
  obtain ⟨m', hc, ⟨data, data', h1, h2, h3, h4⟩, hp⟩ := h m data hm (by omega)
  exact ⟨m', hc, ⟨data, data', h1, h2, h3, fun i hi => h4 i (by omega)⟩, hp⟩

theorem stores_nothing (at_ : Nat) : Stores buffer at_ at_ (pure ()) fun _ => True :=
  fun m data hm _ => ⟨m, rfl, ⟨data, data, hm, hm, rfl, fun _ _ => rfl⟩, trivial⟩

/-- Two stores one behind the other; the first part is not touched by the second. -/
theorem Stores.andThen {lo mid hi : Nat} {c d : Change Memory Unit} {P Q : Memory → Prop}
    (h : Stores buffer lo mid c P) (hl : Local buffer lo mid P) (h' : Stores buffer mid hi d Q)
    (hle : lo ≤ mid ∧ mid ≤ hi) : Stores buffer lo hi (c >>= fun _ => d) fun m => P m ∧ Q m := by
  intro m data hm hsize
  obtain ⟨m₁, hc, hch, hP⟩ := h m data hm (by omega)
  obtain ⟨data, data₁, hd, hd₁, hs₁, hb₁⟩ := id hch
  have hsame : data.size = _ := congrArg Array.size (Option.some.inj (hd.symm.trans hm))
  obtain ⟨m₂, hc', hch', hQ⟩ := h' m₁ data₁ hd₁ (by omega)
  refine ⟨m₂, ?_, ?_, hl m₁ m₂ (hch'.agreeOn (Or.inl (le_refl _))) hP, hQ⟩
  · rw [apply_bind_ok hc]
    exact hc'
  · obtain ⟨data₁', data₂, hd₁', hd₂, hs₂, hb₂⟩ := hch'
    cases hd₁.symm.trans hd₁'
    refine ⟨data, data₂, hd, hd₂, hs₂.trans hs₁, fun i hi => ?_⟩
    rw [hb₂ i (by omega), hb₁ i (by omega)]

/-- Parts of one length, stored at equal distances. -/
theorem stores_parts {β : Type} {c : β × Nat → Change Memory Unit} {post : β → Nat → Memory → Prop}
    {base stride size : Nat} (hs : size ≤ stride) (items : List β) (k : Nat)
    (h : ∀ i item, items[i]? = some item →
      Stores buffer (base + (k + i) * stride) (base + (k + i) * stride + size) (c (item, k + i))
        (post item (k + i)) ∧
      Local buffer (base + (k + i) * stride) (base + (k + i) * stride + size) (post item (k + i))) :
    Stores buffer (base + k * stride) (base + (k + items.length) * stride) ((items.zipIdx k).forM c)
      fun m => ∀ i item, items[i]? = some item → post item (k + i) m := by
  induction items generalizing k with
  | nil =>
    intro m data hm hsize
    obtain ⟨m', h1, h2, -⟩ := stores_nothing (base + k * stride) m data hm hsize
    exact ⟨m', h1, h2, fun i item hi => by cases hi⟩
  | cons first rest ih =>
    rw [List.zipIdx_cons, List.length_cons]
    show Stores _ _ _ (c (first, k) >>= fun _ => (rest.zipIdx (k + 1)).forM c) _
    obtain ⟨hfirst, hlocal⟩ := h 0 first rfl
    have hrest := ih (k + 1) fun i item hi => by
      have e : k + 1 + i = k + (i + 1) := by omega
      rw [e]
      exact h (i + 1) item (by rw [List.getElem?_cons_succ]; exact hi)
    have hstep : (k + 1) * stride = k * stride + stride := Nat.succ_mul k stride
    have hlen : k + 1 + rest.length = k + (rest.length + 1) := by omega
    have htotal : (k + 1) * stride ≤ (k + (rest.length + 1)) * stride :=
      Nat.mul_le_mul_right _ (by omega)
    rw [Nat.add_zero] at hfirst hlocal
    rw [hlen] at hrest
    have hwide : Stores buffer (base + k * stride) (base + (k + 1) * stride) (c (first, k))
        (post first k) := hfirst.mono (le_refl _) (by omega)
    have both := hwide.andThen (hlocal.mono (le_refl _) (by omega)) hrest (by omega)
    intro m data hm hsize
    obtain ⟨m', h1, h2, hp, hps⟩ := both m data hm hsize
    refine ⟨m', h1, h2, fun i item hi => ?_⟩
    cases i with
    | zero =>
      cases hi
      exact hp
    | succ i =>
      have e : k + (i + 1) = k + 1 + i := by omega
      rw [e]
      exact hps i item (by rw [List.getElem?_cons_succ] at hi; exact hi)

theorem stores_zipIdx {β : Type} {c : β × Nat → Change Memory Unit}
    (post : β → Nat → Memory → Prop) {base stride size : Nat} (hs : size ≤ stride) (items : List β)
    (h : ∀ i item, items[i]? = some item →
      Stores buffer (base + i * stride) (base + i * stride + size) (c (item, i)) (post item i) ∧
      Local buffer (base + i * stride) (base + i * stride + size) (post item i)) :
    Stores buffer base (base + items.length * stride) (items.zipIdx.forM c)
      fun m => ∀ i item, items[i]? = some item → post item i m := by
  have parts : Stores buffer (base + 0 * stride) (base + (0 + items.length) * stride)
      ((items.zipIdx 0).forM c) fun m => ∀ i item, items[i]? = some item → post item (0 + i) m :=
    stores_parts hs items 0 fun i item hi => by
      rw [Nat.zero_add]
      exact h i item hi
  simpa only [Nat.zero_mul, Nat.add_zero, Nat.zero_add] using parts

/-! ## Storing scalars and components -/

theorem stores_storeScalar {kind : ScalarKind} {value : Value} (start : Nat)
    (h : value.OfKind kind) :
    Stores buffer start (start + kind.size) (storeScalar kind buffer start value)
      fun m => m.loadScalar kind buffer start = .ok value := by
  intro m data hm hsize
  obtain ⟨bytes, henc, hdec⟩ := ScalarKind.decode_encode h
  have hlen := ScalarKind.length_of_encode henc
  have hrange : m.checkRange buffer start kind.size = .ok () := by
    simp only [checkRange, hm, hsize, if_true]
    rfl
  have hafter : (write buffer start bytes m).buffers[buffer]? =
      some (Bytes.write data start bytes) := by
    simp only [write, Array.getElem?_modify, hm, if_true, Option.map_some]
  refine ⟨write buffer start bytes m, ?_, ⟨data, _, hm, hafter, Bytes.size_write .., ?_⟩, ?_⟩
  · have h1 : (get : Change Memory Memory).apply m = (.ok m, m) := rfl
    rw [storeScalar, apply_bind_ok h1]
    rw [hrange, henc]
    rfl
  · intro i hi
    exact Bytes.getElem?_write_outside data (by rw [hlen]; exact hi)
  · have hfits : start + bytes.length ≤ data.size := by
      rw [hlen]
      exact hsize
    have hread := Bytes.read_write data hfits
    rw [hlen] at hread
    simp only [loadScalar, checkRange, hafter, Bytes.size_write, hsize, if_true, Option.getD_some,
      hread, hdec]
    rfl

theorem local_loadScalar (kind : ScalarKind) (start : Nat) (value : Value) :
    Local buffer start (start + kind.size) fun m => m.loadScalar kind buffer start = .ok value := by
  intro m m' ha hp
  rw [loadScalar_congr ha, hp]

theorem spread_vector {items : List Value} {length : Nat} (h : items.length = length) (t : TypeInfo) :
    spread length t (.vector items) = .ok items := by
  simp only [spread, pure_bind, h, if_true]
  rfl

theorem spread_matrix {columns : List (List Single)} {length : Nat} (h : columns.length = length)
    (t : TypeInfo) : spread length t (.matrix columns) = .ok (columns.map Value.ofSingles) := by
  simp only [spread, pure_bind, List.length_map, h, if_true]
  rfl

theorem storeAt_scalar (offset : Nat) (value : Value) {e : TypeInfo} {kind : ScalarKind}
    (h : e.shape = .scalar kind) :
    storeAt buffer e offset value = storeScalar kind buffer offset value := by
  obtain ⟨name, attributes, size, align, shape⟩ := e
  simp only [TypeInfo.shape] at h
  subst h
  rw [storeAt, storeShape]

/-- The components of a vector, one behind the other. -/
theorem stores_storeComponents (v : BufferView) {e : TypeInfo} {kind : ScalarKind} {length : Nat}
    {items : List Value} (he : e.shape = .scalar kind) (hes : e.size = kind.size)
    (hv : v.type.elements 0 = .ok ⟨e, e.size, length⟩) (hlen : items.length = length)
    (hfit : v.offset + length * e.size < sizeLimit) (hk : ∀ item ∈ items, item.OfKind kind) :
    Stores v.buffer v.offset (v.offset + length * e.size)
      (storeComponents length v (some e) (.vector items)) fun m =>
        (Run.values length fun i =>
          m.loadScalar kind v.buffer (v.offset + i * e.size)) = .ok items := by
  subst hlen
  have hparts : Stores v.buffer v.offset (v.offset + items.length * e.size)
      (items.zipIdx.forM fun part => do
        storeAt v.buffer e (← v.element part.2 0).offset part.1)
      fun m => ∀ i item, items[i]? = some item →
        m.loadScalar kind v.buffer (v.offset + i * e.size) = .ok item := by
    apply stores_zipIdx (fun item i m =>
      m.loadScalar kind v.buffer (v.offset + i * e.size) = .ok item) (le_refl e.size) items
    intro i item hi
    have hlt : i < items.length := (List.getElem?_eq_some_iff.mp hi).1
    have hmul : i * e.size ≤ items.length * e.size := Nat.mul_le_mul_right _ (by omega)
    dsimp only
    rw [BufferView.element_ok hv hlt (by dsimp only; omega)]
    show Stores _ _ _ (storeAt v.buffer e (v.offset + i * e.size) item) _ ∧ _
    rw [storeAt_scalar _ _ he, hes]
    exact ⟨stores_storeScalar _ (hk item (List.mem_of_getElem? hi)), local_loadScalar kind _ item⟩
  intro m data hm hsize
  obtain ⟨m', h1, h2, h3⟩ := hparts m data hm hsize
  refine ⟨m', ?_, h2, Run.values_eq_ok h3⟩
  rw [storeComponents, spread_vector rfl]
  exact h1

theorem mapM_number_map_f32 (column : List Single) :
    (column.map Value.f32).mapM Value.number = .ok column := by
  induction column with
  | nil => rfl
  | cons x rest ih =>
    rw [List.map_cons, List.mapM_cons, ih]
    rfl

theorem local_loadColumn {kind : ScalarKind} {size : Nat} (hs : size = kind.size)
    (rows start : Nat) (column : List Single) :
    Local buffer start (start + rows * size) fun m =>
      m.loadColumn kind buffer rows size start = .ok column := by
  intro m m' ha hp
  rw [loadColumn_congr hs ha, hp]

theorem stores_column (start : Nat) {e : TypeInfo} {kind : ScalarKind} {column : List Single}
    (he : e.shape = .scalar kind) (hes : e.size = kind.size)
    (hrows : vectorLength? ("vec" ++ toString column.length) = some column.length)
    (hfit : start + column.length * e.size < sizeLimit)
    (hk : ∀ x ∈ column, (Value.f32 x).OfKind kind) :
    Stores buffer start (start + column.length * e.size)
      (storeComponents column.length ⟨buffer, start, .columnOf column.length e⟩ (some e)
        (.ofSingles column))
      fun m => m.loadColumn kind buffer column.length e.size start = .ok column := by
  have hstore := stores_storeComponents ⟨buffer, start, .columnOf column.length e⟩ he hes
    (TypeInfo.elements_vector hrows 0) (List.length_map Value.f32) hfit (by
      intro item hi
      obtain ⟨x, hx, rfl⟩ := List.mem_map.mp hi
      exact hk x hx)
  intro m data hm hsize
  obtain ⟨m', h1, h2, h3⟩ := hstore m data hm hsize
  refine ⟨m', h1, h2, ?_⟩
  dsimp only at h3 ⊢
  rw [loadColumn, h3]
  exact mapM_number_map_f32 column

/-- The columns of a matrix, one alignment apart. -/
theorem stores_columns (v : BufferView) {e : TypeInfo} {kind : ScalarKind}
    {columns : List (List Single)} {rows stride : Nat} (he : e.shape = .scalar kind)
    (hes : e.size = kind.size) (hrows : vectorLength? ("vec" ++ toString rows) = some rows)
    (hv : v.type.elements 0 = .ok ⟨.columnOf rows e, stride, columns.length⟩)
    (hcol : rows * e.size ≤ stride) (hfit : v.offset + columns.length * stride < sizeLimit)
    (hk : ∀ column ∈ columns, column.length = rows ∧ ∀ x ∈ column, (Value.f32 x).OfKind kind) :
    Stores v.buffer v.offset (v.offset + columns.length * stride)
      ((columns.map Value.ofSingles).zipIdx.forM fun part => do
        storeComponents rows (← v.element part.2 0) (some e) part.1) fun m =>
      (Run.values columns.length fun c =>
        m.loadColumn kind v.buffer rows e.size (v.offset + c * stride)) = .ok columns := by
  have hparts : Stores v.buffer v.offset (v.offset + columns.length * stride)
      (columns.zipIdx.forM fun part => do
        storeComponents rows (← v.element part.2 0) (some e) (Value.ofSingles part.1))
      fun m => ∀ c column, columns[c]? = some column →
        m.loadColumn kind v.buffer rows e.size (v.offset + c * stride) = .ok column := by
    apply stores_zipIdx (fun column c m =>
      m.loadColumn kind v.buffer rows e.size (v.offset + c * stride) = .ok column) hcol columns
    intro c column hc
    have hlt : c < columns.length := (List.getElem?_eq_some_iff.mp hc).1
    have hin := part_fits hlt hcol
    obtain ⟨hlen, hof⟩ := hk column (List.mem_of_getElem? hc)
    subst hlen
    dsimp only
    rw [BufferView.element_ok hv hlt (by dsimp only; omega)]
    exact ⟨stores_column _ he hes hrows (by omega) hof, local_loadColumn hes _ _ column⟩
  intro m data hm hsize
  obtain ⟨m', h1, h2, h3⟩ := hparts m data hm hsize
  refine ⟨m', ?_, h2, Run.values_eq_ok h3⟩
  rw [List.zipIdx_map, List.forM_eq_forM, List.forM_map]
  exact h1

/-! ## Storing values of a type -/

/-- Stores the elements of an array through the view of it. -/
def storeElements (v : BufferView) (element : TypeInfo) (items : List Value) : Change Memory Unit :=
  items.zipIdx.forM fun part => do
    storeAt v.buffer element (← v.element part.2 items.length).offset part.1

theorem storeAt_array (m : Memory) {offset size align stride : Nat} {name : String}
    {attributes : List Attribute} {element : TypeInfo} {items : List Value} :
    (storeAt buffer (.mk name attributes size align (.array element (some items.length) stride))
      offset (.array items)).apply m =
    (storeElements ⟨buffer, offset, .mk name attributes size align
      (.array element (some items.length) stride)⟩ element items).apply m := by
  have hget : (get : Change Memory Memory).apply m = (.ok m, m) := rfl
  have hcount : m.runtimeCount ⟨buffer, offset,
      .mk name attributes size align (.array element (some items.length) stride)⟩ =
    items.length := rfl
  rw [storeAt, storeShape]
  dsimp only
  rw [apply_bind_ok hget, hcount, Nat.min_self, List.take_length]
  rfl

theorem find?_of_mem {fields : List (String × Value)} (hn : (fields.map Prod.fst).Nodup)
    {name : String} {value : Value} (h : (name, value) ∈ fields) :
    Table.find? fields name = some value := by
  induction fields with
  | nil => cases h
  | cons f rest ih =>
    obtain ⟨n, v⟩ := f
    rw [List.map_cons, List.nodup_cons] at hn
    rw [Table.find?, List.lookup_cons]
    rcases List.mem_cons.mp h with heq | hrest
    · cases heq
      rw [beq_self_eq_true]
    · have hne : name ≠ n := by
        rintro rfl
        exact hn.1 (List.mem_map.mpr ⟨(name, value), hrest, rfl⟩)
      rw [beq_eq_false_iff_ne.mpr hne]
      exact ih hn.2 hrest

theorem names_of_haveTypes : ∀ {members : List MemberInfo} {fields : List (String × Value)},
    Value.HaveTypes members fields → fields.map Prod.fst = members.map MemberInfo.name
  | [], [], _ => rfl
  | [], _ :: _, h => h.elim
  | _ :: _, [], h => by simp only [Value.HaveTypes] at h
  | .mk name type offset size align :: members, (found, v) :: fields, h => by
    obtain ⟨rfl, -, hrest⟩ := h
    rw [List.map_cons, List.map_cons, names_of_haveTypes hrest]
    rfl

theorem Stores.imp {lo hi : Nat} {c : Change Memory Unit} {P Q : Memory → Prop}
    (h : Stores buffer lo hi c P) (hpq : ∀ m, P m → Q m) : Stores buffer lo hi c Q := by
  intro m data hm hsize
  obtain ⟨m', h1, h2, h3⟩ := h m data hm hsize
  exact ⟨m', h1, h2, hpq m' h3⟩

theorem local_loadAt {t : TypeInfo} {offset : Nat} (hw : t.WellLaid) (hs : t.Storable)
    (hfit : offset + t.size < sizeLimit) (value : Value) :
    Local buffer offset (offset + t.size) fun m => m.loadAt buffer t offset = .ok value := by
  intro m m' ha hp
  rw [loadAt_congr t offset hw hs hfit ha, hp]

theorem stores_template {name base : String} {attributes : List Attribute} {offset size align : Nat}
    {e : TypeInfo} {kind : ScalarKind} {access space : Option String} {value : Value}
    (he : e.shape = .scalar kind)
    (hkind : (vectorLength? base).isSome ∨ ((matrixShape? base).isSome ∧ (kind = .f32 ∨ kind = .f16)) ∨
      (base = "atomic" ∧ (kind = .i32 ∨ kind = .u32)))
    (hw : (TypeInfo.mk name attributes size align (.template base (some e) access space)).WellLaid)
    (ht : value.HasTemplate base kind) (hfit : offset + size < sizeLimit) :
    Stores buffer offset (offset + size)
      (storeAt buffer (.mk name attributes size align (.template base (some e) access space)) offset
        value)
      fun m => m.loadAt buffer
        (.mk name attributes size align (.template base (some e) access space)) offset = .ok value := by
  have hes := TypeInfo.size_of_scalar he hw.1
  rcases hkind with hv | ⟨hm, -⟩ | ⟨rfl, -⟩
  · obtain ⟨n, hb⟩ := Option.isSome_iff_exists.mp hv
    have hsize := TypeInfo.size_of_vector hb he hw
    subst hsize
    have hnone := TypeInfo.matrixShape?_eq_none hb
    cases value with
    | vector items =>
      obtain ⟨hlen, hof⟩ := ht
      rw [hb] at hlen
      cases hlen
      have hstore := stores_storeComponents ⟨buffer, offset, .mk name attributes
        (items.length * e.size) align (.template base (some e) access space)⟩ he hes
        (TypeInfo.elements_vector hb 0) rfl hfit hof
      rw [storeAt, storeShape, hnone]
      simp only [hb]
      refine hstore.imp fun m hm => ?_
      rw [loadAt_vector m hb he hfit, hm]
      rfl
    | matrix columns =>
      obtain ⟨rows, hrows, -⟩ := ht
      rw [hnone] at hrows
      cases hrows
    | _ =>
      obtain ⟨rfl, -⟩ := ht
      cases hb
  · obtain ⟨⟨columns, rows⟩, hb⟩ := Option.isSome_iff_exists.mp hm
    obtain ⟨hsize, hcol⟩ := TypeInfo.size_of_matrix hb he hw
    subst hsize
    cases value with
    | vector items =>
      have hnone := TypeInfo.matrixShape?_eq_none ht.1
      rw [hb] at hnone
      cases hnone
    | matrix found =>
      obtain ⟨rows', hrows, hof⟩ := ht
      rw [hb] at hrows
      cases hrows
      obtain ⟨-, -, hlength⟩ := TypeInfo.rows_bounds hb
      have hstore := stores_columns ⟨buffer, offset, .mk name attributes
        (found.length * align) align (.template base (some e) access space)⟩ he hes hlength
        (TypeInfo.elements_matrix hb 0) hcol hfit hof
      rw [storeAt, storeShape, hb]
      simp only [spread_matrix rfl]
      refine hstore.imp fun m hm => ?_
      rw [loadAt_matrix m hb he hcol hfit, hm]
      rfl
    | _ =>
      obtain ⟨rfl, -⟩ := ht
      cases hb
  · obtain ⟨hsize, -⟩ := hw.2.2.2 e rfl rfl
    have hof : value.OfKind kind := by
      cases value with
      | vector items => cases ht.1
      | matrix columns =>
        obtain ⟨rows, hrows, -⟩ := ht
        cases hrows
      | _ => exact ht.2
    rw [hsize, hes, storeAt, storeShape, TypeInfo.paramScalarKind?_of_scalar he]
    refine (stores_storeScalar offset hof).imp fun m hm => ?_
    rw [loadAt_atomic m he, hm]

mutual

/-- A store of a value of the type succeeds, writes no byte outside the type, and the value is loaded
afterwards. -/
theorem stores_storeAt : ∀ (t : TypeInfo) (offset : Nat) (value : Value), t.WellLaid → t.Storable →
    value.HasType t → offset + t.size < sizeLimit →
    Stores buffer offset (offset + t.size) (storeAt buffer t offset value)
      fun m => m.loadAt buffer t offset = .ok value
  | .mk name attributes size align (.scalar kind), offset, value, hw, _, ht, _ => by
    obtain ⟨hsize, -⟩ := hw
    simp only [TypeInfo.size]
    subst hsize
    rw [storeAt_scalar _ _ rfl]
    exact (stores_storeScalar offset ht).imp fun m hp => by rw [loadAt_scalar m _ _ rfl, hp]
  | .mk name attributes size align .handle, offset, value, _, hs, _, _ => hs.elim
  | .mk name attributes size align (.array element count stride), offset, value, hw, hs, ht, hfit => by
    obtain ⟨hse, hsome, hstride⟩ := hs
    obtain ⟨n, rfl⟩ := Option.isSome_iff_exists.mp hsome
    obtain ⟨hwe, -, hsize⟩ := hw
    obtain ⟨hn, -⟩ := hsize n rfl
    cases value with
    | array items =>
      obtain ⟨hcount, hof⟩ := ht
      cases hcount
      simp only [TypeInfo.size] at hfit ⊢
      subst hn
      have hle := TypeInfo.size_le_stride hwe hse.ofScalars hstride
      have hparts : Stores buffer offset (offset + items.length * stride)
          (storeElements ⟨buffer, offset, .mk name attributes (items.length * stride) align
            (.array element (some items.length) stride)⟩ element items)
          fun m => ∀ i item, items[i]? = some item →
            m.loadAt buffer element (offset + i * stride) = .ok item := by
        apply stores_zipIdx (fun item i m =>
          m.loadAt buffer element (offset + i * stride) = .ok item) hle items
        intro i item hi
        have hlt : i < items.length := (List.getElem?_eq_some_iff.mp hi).1
        have hin := part_fits hlt hle
        dsimp only
        rw [BufferView.element_ok rfl hlt (by dsimp only; omega)]
        have hitem := hof item (List.mem_of_getElem? hi)
        exact ⟨stores_storeAt element _ item hwe hse hitem (by omega),
          local_loadAt hwe hse (by omega) item⟩
      intro m data hm hsize
      obtain ⟨m', h1, h2, h3⟩ := hparts m data hm hsize
      refine ⟨m', ?_, h2, ?_⟩
      · rw [storeAt_array]
        exact h1
      · dsimp only
        rw [loadAt_array m' hfit, Run.values_eq_ok h3]
        rfl
    | _ => exact ht.elim
  | .mk name attributes size align (.struct key members first last), offset, value, hw, hs, ht, hfit => by
    obtain ⟨finish, hp, hround, -⟩ := hw
    have hle := le_of_checkedRoundUp hround
    cases value with
    | struct found fields =>
      obtain ⟨rfl, htypes⟩ := ht
      have hnodup := hs.1
      rw [← names_of_haveTypes htypes] at hnodup
      simp only [TypeInfo.size] at hfit ⊢
      have hmembers := stores_storeMembers fields members fields ⟨buffer, offset,
        .mk found attributes size align (.struct key members first last)⟩ 0 finish rfl hp hs.2 htypes
        (fun name value hmem => find?_of_mem hnodup hmem) (by dsimp only; omega)
      rw [storeAt, storeShape]
      refine (hmembers.mono (by dsimp only; omega) (by dsimp only; omega)).imp fun m hm => ?_
      rw [loadAt, loadShape, hm]
      rfl
    | _ => exact ht.elim
  | .mk name attributes size align (.template base param access space), offset, value, hw, hs, ht, hfit => by
    obtain ⟨e, kind, rfl, he, hkind⟩ := hs
    simp only [TypeInfo.size] at hfit ⊢
    obtain ⟨kind', hparam, ht⟩ := ht
    rw [TypeInfo.paramScalarKind?_of_scalar he] at hparam
    cases hparam
    exact stores_template he hkind hw ht hfit

/-- A store of the members from the byte `next` on. -/
theorem stores_storeMembers (fields : List (String × Value)) : ∀ (members : List MemberInfo)
    (part : List (String × Value)) (v : BufferView) (next finish : Nat), v.buffer = buffer →
    MemberInfo.Placed members next finish → MemberInfo.Storable members →
    Value.HaveTypes members part → (∀ name value, (name, value) ∈ part →
      Table.find? fields name = some value) → v.offset + finish < sizeLimit →
    Stores buffer (v.offset + next) (v.offset + finish) (storeMembers v fields members)
      fun m => m.loadMembers v members = .ok part
  | [], [], v, next, finish, _, hp, _, _, _, _ => by
    have hend : next = finish := hp
    subst hend
    rw [storeMembers]
    exact (stores_nothing _).imp fun m _ => by
      rw [loadMembers]
      rfl
  | [], _ :: _, _, _, _, _, _, _, ht, _, _ => ht.elim
  | _ :: _, [], _, _, _, _, _, _, ht, _, _ => by simp only [Value.HaveTypes] at ht
  | .mk name type offset size align :: rest, (found, value) :: part, v, next, finish, hb, hp, hs, ht,
      hf, hfit => by
    obtain ⟨hw, -, hsize, hround, -, hrest⟩ := hp
    obtain ⟨hst, hsr⟩ := hs
    obtain ⟨rfl, htv, htr⟩ := ht
    have hnext := le_of_checkedRoundUp hround
    have hend := hrest.le
    have hfirst := stores_storeAt type (v.offset + offset) value hw hst htv (by omega)
    have hwide : Stores buffer (v.offset + next) (v.offset + (offset + size))
        (storeAt buffer type (v.offset + offset) value)
        fun m => m.loadAt buffer type (v.offset + offset) = .ok value :=
      hfirst.mono (by omega) (by omega)
    have hlocal : Local buffer (v.offset + next) (v.offset + (offset + size))
        fun m => m.loadAt buffer type (v.offset + offset) = .ok value :=
      (local_loadAt hw hst (by omega) value).mono (by omega) (by omega)
    have hothers := stores_storeMembers fields rest part v (offset + size) finish hb hrest hsr htr
      (fun n x hx => hf n x (List.mem_cons_of_mem _ hx)) hfit
    have hboth := hwide.andThen hlocal hothers (by omega)
    rw [storeMembers, hf found value (List.mem_cons_self ..), BufferView.shifted_ok type (by omega), hb]
    refine hboth.imp fun m hm => ?_
    rw [loadMembers_cons m (by omega), hb, hm.1, hm.2]
    rfl

end

/-! ## The round trip -/

/-- In a module without layout errors, a value of a storable type is stored through every view that
lies inside its buffer, and the same view loads it again. -/
theorem load_store {p : Program} {queries : List Layouts.Query} {found : List (Option TypeInfo)}
    {l : Layouts} (hl : (Layouts.answers queries).run (.ofProgram p) = .ok (found, l))
    (herr : l.errors = []) {v : BufferView} (hv : some v.type ∈ found) (hs : v.type.Storable)
    (hfit : v.offset + v.type.size < 2 ^ 32) {m : Memory} {data : Array UInt8}
    (hm : m.buffers[v.buffer]? = some data) (hsize : v.offset + v.type.size ≤ data.size)
    {value : Value} (ht : value.HasType v.type) :
    ∃ m', (store v value).apply m = (.ok (), m') ∧ m'.load v = .ok value := by
  have hw := Layouts.wellLaid_of_answer hl herr hv
  obtain ⟨m', happly, -, hload⟩ := stores_storeAt v.type v.offset value hw hs ht hfit m data hm hsize
  exact ⟨m', happly, hload⟩

/-- A structure of a flag, half-precision columns and a spaced array, behind an alias. -/
theorem load_store_light :
    let light : StructDecl :=
      { name := "Light"
        members := [⟨"on", .named 1 [] "bool", []⟩,
          ⟨"turn", .template 2 [] "mat2x3" (some (.named 3 [] "f16")) none none, []⟩,
          ⟨"hits", .array 4 [] (some (.template 5 [] "atomic" (some (.named 6 [] "u32")) none none))
            (some 2) none, []⟩]
        attributes := []
        startLine := 1
        endLine := 5 }
    let p : Program := ⟨[.struct light, .alias_ ⟨"Lamp", .named 7 [] "Light", 6⟩]⟩
    let value : Value := .struct "Light" [("on", .bool true),
      ("turn", .matrix [[⟨0x3f800000⟩, ⟨0xc0000000⟩, ⟨0x33800000⟩], [⟨0⟩, ⟨0x80000000⟩, ⟨0x7f800000⟩]]),
      ("hits", .array [.u32 7, .u32 0xffffffff])]
    ∃ t l, (Layouts.answers [.named "Lamp"]).run (.ofProgram p) = .ok ([some t], l) ∧
      ∃ m', (store ⟨0, 4, t⟩ value).apply { buffers := #[Array.replicate 40 0xaa] } = (.ok (), m') ∧
        m'.load ⟨0, 4, t⟩ = .ok value := by
  intro light p value
  have hhalf : ∀ column ∈ [[⟨0x3f800000⟩, ⟨0xc0000000⟩, ⟨0x33800000⟩],
      [⟨0⟩, ⟨0x80000000⟩, ⟨0x7f800000⟩]], column.length = 3 ∧ ∀ x ∈ column, Number.Half.Holds x := by
    decide
  have hhits : ∀ item ∈ [Value.u32 7, Value.u32 0xffffffff],
      ∃ kind, some ScalarKind.u32 = some kind ∧ item.HasTemplate "atomic" kind := by
    intro item hi
    rcases List.mem_cons.mp hi with rfl | hi
    · exact ⟨.u32, rfl, rfl, trivial⟩
    · cases List.mem_singleton.mp hi
      exact ⟨.u32, rfl, rfl, trivial⟩
  refine ⟨_, _, rfl, ?_⟩
  refine @load_store p [.named "Lamp"] _ _ rfl rfl _ (List.mem_singleton.mpr rfl) ?_ ?_ _ _ rfl ?_ _ ?_
  · refine ⟨by decide, trivial, ⟨_, .f16, rfl, rfl, ?_⟩, ⟨⟨_, .u32, rfl, rfl, ?_⟩, rfl, by decide⟩,
      trivial⟩
    · exact .inr (.inl ⟨rfl, .inr rfl⟩)
    · exact .inr (.inr ⟨rfl, .inr rfl⟩)
  · decide
  · decide
  · exact ⟨rfl, rfl, trivial, rfl, ⟨.f16, rfl, 3, rfl, hhalf⟩, rfl, ⟨rfl, hhits⟩, trivial⟩

end Memory

end Wgsl
