import Wgsl.Proofs.Memory.RoundTrip

/-! # Every scalar has bytes of its own

A view of a whole type is narrowed to its scalars one member or element at a time.

* `TypeInfo.HasPart`: the parts of a type with their positions and first bytes.
* `TypeInfo.HasPart.inside`, `TypeInfo.HasPart.apart`: parts lie inside the whole, in the order of
  their positions.
* `BufferView.Leads`: accesses from a view down to another, with the positions that they select.
* `BufferView.leaves_apart`: the scalars of a type lie inside it and apart from each other, and are
  aligned if what is written about alignment is regular.

One access selects one part, so whatever holds of parts goes along a path by induction.
-/

namespace Wgsl
set_option autoImplicit false

/-! ## Parts of a type -/

/-- A part of a type: its position among the parts, its first byte and its type. -/
inductive TypeInfo.HasPart : TypeInfo → Nat → Nat → TypeInfo → Prop where
  | element {name : String} {attributes : List Attribute} {size align n stride i : Nat}
      {e : TypeInfo} (hi : i < n) :
      HasPart (.mk name attributes size align (.array e (some n) stride)) i (i * stride) e
  | member {name : String} {attributes : List Attribute} {size align first last i : Nat}
      {key : StructKey} {members : List MemberInfo} {m : MemberInfo} (hm : members[i]? = some m) :
      HasPart (.mk name attributes size align (.struct key members first last)) i m.offset m.type
  | component {name base : String} {attributes : List Attribute} {size align n i : Nat}
      {e : TypeInfo} {access space : Option String} (hb : Wgsl.vectorLength? base = some n) (hi : i < n) :
      HasPart (.mk name attributes size align (.template base (some e) access space)) i
        (i * e.size) e
  | column {name base : String} {attributes : List Attribute} {size align columns rows i : Nat}
      {e : TypeInfo} {access space : Option String} (hb : Wgsl.matrixShape? base = some (columns, rows))
      (hi : i < columns) :
      HasPart (.mk name attributes size align (.template base (some e) access space)) i
        (i * align) (columnOf rows e)

/-- What is known of one member among members that follow each other. -/
theorem MemberInfo.Placed.get {members : List MemberInfo} {next finish i : Nat} {m : MemberInfo}
    (h : MemberInfo.Placed members next finish) (hm : members[i]? = some m) :
    m.type.WellLaid ∧ m.type.align ≤ m.align ∧ (∃ n, checkedRoundUp m.align n = some m.offset) ∧
      next ≤ m.offset ∧ m.offset + m.type.size ≤ finish := by
  induction members generalizing next i with
  | nil => cases hm
  | cons first rest ih =>
    obtain ⟨name, type, offset, size, align⟩ := first
    obtain ⟨hw, ha, hs, hround, -, hrest⟩ := h
    have hnext := le_of_checkedRoundUp hround
    cases i with
    | zero =>
      cases hm
      have hend := hrest.le
      simp only [MemberInfo.type, MemberInfo.align, MemberInfo.offset]
      exact ⟨hw, ha, ⟨next, hround⟩, hnext, by omega⟩
    | succ i =>
      obtain ⟨h1, h2, h3, h4, h5⟩ := ih hrest hm
      exact ⟨h1, h2, h3, by omega, h5⟩

/-- A member ends where a later one starts, or before. -/
theorem MemberInfo.Placed.apart {members : List MemberInfo} {next finish i j : Nat}
    {m m' : MemberInfo} (h : MemberInfo.Placed members next finish) (hij : i < j)
    (hm : members[i]? = some m) (hm' : members[j]? = some m') :
    m.offset + m.type.size ≤ m'.offset := by
  induction members generalizing next i j with
  | nil => cases hm
  | cons first rest ih =>
    obtain ⟨name, type, offset, size, align⟩ := first
    obtain ⟨-, -, hs, -, -, hrest⟩ := h
    obtain ⟨k, rfl⟩ : ∃ k, j = k + 1 := ⟨j - 1, by omega⟩
    cases i with
    | zero =>
      cases hm
      have hstart := (hrest.get hm').2.2.2.1
      show offset + type.size ≤ m'.offset
      omega
    | succ i => exact ih hrest (by omega) hm hm'

theorem MemberInfo.OfScalars.get {members : List MemberInfo} {i : Nat} {m : MemberInfo}
    (h : MemberInfo.OfScalars members) (hm : members[i]? = some m) : m.type.OfScalars := by
  induction members generalizing i with
  | nil => cases hm
  | cons first rest ih =>
    obtain ⟨name, type, offset, size, align⟩ := first
    cases i with
    | zero =>
      cases hm
      exact h.1
    | succ i => exact ih h.2 hm

namespace TypeInfo

/-- A column is laid out as a vector of its components. -/
theorem columnOf_eq {rows : Nat} {e : TypeInfo} {kind : ScalarKind} (hr : rows ≤ 4)
    (hk : e.shape = .scalar kind) (he : e.WellLaid) :
    columnOf rows e = LayoutM.vectorInfo ("vec" ++ toString rows) rows e := by
  have hlimit : sizeLimit = 4294967296 := rfl
  have hsize : e.size ≤ 4 := by
    rw [size_of_scalar hk he]
    cases kind <;> decide
  have hmul : rows * e.size ≤ 4 * 4 := Nat.mul_le_mul hr hsize
  have halign : (if rows = 2 then 2 else 4) * e.size < sizeLimit := by
    split <;> omega
  rw [columnOf, LayoutM.vectorInfo, Nat.mod_eq_of_lt halign, Nat.mod_eq_of_lt (by omega)]

namespace HasPart

variable {t part part' : TypeInfo} {i j start start' : Nat}

/-- A part is a type of the same sort as the whole, and lies inside it. -/
theorem inside (h : t.HasPart i start part) (hw : t.WellLaid) (hs : t.OfScalars) :
    part.WellLaid ∧ part.OfScalars ∧ start + part.size ≤ t.size := by
  cases h with
  | @element _ _ size align n stride _ _ hi =>
    obtain ⟨hwe, -, hsize⟩ := hw
    obtain ⟨hse, -, hstride⟩ := hs
    rw [TypeInfo.size, (hsize n rfl).1]
    exact ⟨hwe, hse, Memory.part_fits hi (size_le_stride hwe hse hstride)⟩
  | member hm =>
    obtain ⟨finish, hplaced, hround, -⟩ := hw
    obtain ⟨hwm, -, -, -, hend⟩ := hplaced.get hm
    exact ⟨hwm, hs.get hm, hend.trans (le_of_checkedRoundUp hround)⟩
  | component hb hi =>
    obtain ⟨e', kind, he', hk, -⟩ := hs
    cases he'
    have hsize := size_of_vector hb hk hw
    have hse : part.OfScalars := by
      obtain ⟨pname, pattributes, psize, palign, pshape⟩ := part
      cases hk
      trivial
    exact ⟨hw.1, hse, by rw [TypeInfo.size, hsize]; exact Memory.part_fits hi (Nat.le_refl _)⟩
  | column hb hi =>
    obtain ⟨e, kind, he, hk, -⟩ := hs
    cases he
    obtain ⟨-, hrows, hvec⟩ := rows_bounds hb
    obtain ⟨hsize, hroom⟩ := size_of_matrix hb hk hw
    have hcolumn := columnOf_eq hrows hk hw.1
    refine ⟨hcolumn ▸ LayoutM.vectorInfo_wellLaid hvec hw.1, ?_, ?_⟩
    · exact ⟨_, kind, rfl, hk, .inl (by rw [hvec]; rfl)⟩
    · rw [TypeInfo.size, hsize]
      exact Memory.part_fits hi hroom

/-- Parts follow each other in the order of their positions. -/
theorem apart (h : t.HasPart i start part) (h' : t.HasPart j start' part') (hij : i < j)
    (hw : t.WellLaid) (hs : t.OfScalars) : start + part.size ≤ start' := by
  cases h with
  | element hi =>
    cases h'
    exact Memory.part_fits hij (size_le_stride hw.1 hs.1 hs.2.2)
  | member hm =>
    cases h' with
    | member hm' =>
      obtain ⟨finish, hplaced, -, -⟩ := hw
      exact hplaced.apart hij hm hm'
  | component hb hi =>
    cases h' with
    | component hb' hi' => exact Memory.part_fits hij (Nat.le_refl _)
    | column hb' hi' =>
      rw [matrixShape?_eq_none hb] at hb'
      cases hb'
  | column hb hi =>
    cases h' with
    | component hb' hi' =>
      rw [matrixShape?_eq_none hb'] at hb
      cases hb
    | column hb' hi' =>
      obtain ⟨e', kind, he', hk, -⟩ := hs
      cases he'
      exact Memory.part_fits hij (size_of_matrix hb hk hw).2

/-- A position has one part. -/
theorem unique (h : t.HasPart i start part) (h' : t.HasPart i start' part') :
    start = start' ∧ part = part' := by
  cases h with
  | element hi =>
    cases h'
    exact ⟨rfl, rfl⟩
  | member hm =>
    cases h' with
    | member hm' =>
      cases hm.symm.trans hm'
      exact ⟨rfl, rfl⟩
  | component hb hi =>
    cases h' with
    | component hb' hi' => exact ⟨rfl, rfl⟩
    | column hb' hi' =>
      rw [matrixShape?_eq_none hb] at hb'
      cases hb'
  | column hb hi =>
    cases h' with
    | component hb' hi' =>
      rw [matrixShape?_eq_none hb'] at hb
      cases hb
    | column hb' hi' =>
      cases hb.symm.trans hb'
      exact ⟨rfl, rfl⟩

end HasPart

end TypeInfo

/-! ## Alignment -/

/-- The alignment of a member if it is written: that of the member's type needs no writing. -/
def MemberInfo.writtenAlign? (m : MemberInfo) : Option Nat :=
  if m.align = m.type.align then none else some m.align

/-- The stride of an array if it is written: the size of an element, rounded up to its alignment,
needs no writing. -/
def TypeInfo.writtenStride? (element : TypeInfo) (stride : Nat) : Option Nat :=
  if checkedRoundUp element.align element.size = some stride then none else some stride

mutual

/-- Every alignment that is written in a type is a power of two, and every stride that is written is
a multiple of the alignment of the element. -/
def TypeInfo.Regular : TypeInfo → Prop
  | .mk _ _ _ _ shape => TypeShape.Regular shape

def TypeShape.Regular : TypeShape → Prop
  | .array element _ stride =>
    TypeInfo.Regular element ∧ ∀ n ∈ element.writtenStride? stride, element.align ∣ n
  | .struct _ members _ _ => MemberInfo.Regular members
  | _ => True

def MemberInfo.Regular : List MemberInfo → Prop
  | [] => True
  | .mk name type offset size align :: rest =>
    TypeInfo.Regular type ∧
      (∀ n ∈ (MemberInfo.mk name type offset size align).writtenAlign?, n.isPowerOfTwo) ∧
      MemberInfo.Regular rest

end

theorem MemberInfo.Regular.get {members : List MemberInfo} {i : Nat} {m : MemberInfo}
    (h : MemberInfo.Regular members) (hm : members[i]? = some m) :
    m.type.Regular ∧ ∀ n ∈ m.writtenAlign?, n.isPowerOfTwo := by
  induction members generalizing i with
  | nil => cases hm
  | cons first rest ih =>
    obtain ⟨name, type, offset, size, align⟩ := first
    cases i with
    | zero =>
      cases hm
      exact ⟨h.1, h.2.1⟩
    | succ i => exact ih h.2.2 hm

/-- Of two powers of two the smaller divides the greater. -/
theorem dvd_of_powers {a b : Nat} (ha : a.isPowerOfTwo) (hb : b.isPowerOfTwo) (h : a ≤ b) : a ∣ b := by
  obtain ⟨k, rfl⟩ := ha
  obtain ⟨l, rfl⟩ := hb
  exact Nat.pow_dvd_pow 2 ((Nat.pow_le_pow_iff_right (by decide)).mp h)

theorem dvd_of_checkedRoundUp {k n r : Nat} (h : checkedRoundUp k n = some r) (hk : 0 < k) : k ∣ r := by
  unfold checkedRoundUp at h
  rw [if_neg (Nat.ne_of_gt hk)] at h
  obtain ⟨rfl, -⟩ := checkedSize_eq_some h
  exact Nat.dvd_mul_left ..

/-- The greatest of powers of two is one. -/
theorem powerOfTwo_greatest {aligns : List Nat} (h : ∀ a ∈ aligns, a.isPowerOfTwo) :
    (aligns.foldr max 1).isPowerOfTwo := by
  induction aligns with
  | nil => exact ⟨0, rfl⟩
  | cons a rest ih =>
    have hrest := ih fun b hb => h b (List.mem_cons_of_mem _ hb)
    rw [List.foldr_cons]
    rcases Nat.le_total a (rest.foldr max 1) with hle | hle
    · rw [Nat.max_eq_right hle]
      exact hrest
    · rw [Nat.max_eq_left hle]
      exact h a (List.mem_cons_self ..)

theorem le_greatest {aligns : List Nat} {a : Nat} (h : a ∈ aligns) : a ≤ aligns.foldr max 1 := by
  induction aligns with
  | nil => cases h
  | cons b rest ih =>
    rw [List.foldr_cons]
    rcases List.mem_cons.mp h with rfl | hr
    · exact Nat.le_max_left ..
    · exact (ih hr).trans (Nat.le_max_right ..)

/-- The alignment of a member is written or that of its type. -/
theorem MemberInfo.powerOfTwo_align {m : MemberInfo} (ht : m.type.align.isPowerOfTwo)
    (hm : ∀ n ∈ m.writtenAlign?, n.isPowerOfTwo) : m.align.isPowerOfTwo := by
  unfold MemberInfo.writtenAlign? at hm
  split at hm
  · rename_i heq
    rw [heq]
    exact ht
  · exact hm m.align rfl

theorem powerOfTwo_scalar {e : TypeInfo} {kind : ScalarKind} (h : e.shape = .scalar kind)
    (hw : e.WellLaid) : e.align.isPowerOfTwo ∧ e.align = kind.size := by
  obtain ⟨name, attributes, size, align, shape⟩ := e
  cases h
  obtain ⟨-, rfl⟩ := hw
  refine ⟨?_, rfl⟩
  cases kind <;> first | exact ⟨2, rfl⟩ | exact ⟨1, rfl⟩

mutual

/-- Where what is written is regular, every alignment is a power of two. -/
theorem TypeInfo.Regular.powerOfTwo : ∀ {t : TypeInfo}, t.Regular → t.WellLaid → t.OfScalars →
    t.align.isPowerOfTwo
  | .mk _ _ _ _ (.scalar _), _, hw, _ => (powerOfTwo_scalar rfl hw).1
  | .mk _ _ _ _ .handle, _, _, hs => hs.elim
  | .mk _ _ _ _ (.array e _ _), hr, hw, hs => by
    rw [TypeInfo.align, hw.2.1]
    exact hr.1.powerOfTwo hw.1 hs.1
  | .mk _ _ _ _ (.struct _ members _ _), hr, hw, hs => by
    obtain ⟨finish, hplaced, -, hgreatest⟩ := hw
    rw [TypeInfo.align, hgreatest]
    refine powerOfTwo_greatest fun a ha => ?_
    obtain ⟨m, hm, rfl⟩ := List.mem_map.mp ha
    exact MemberInfo.Regular.powerOfTwo hr hplaced hs m hm
  | .mk _ _ _ _ (.template base param _ _), _, hw, hs => by
    obtain ⟨e, kind, rfl, hk, hbase⟩ := hs
    rw [TypeInfo.align]
    rcases hbase with hv | ⟨hm, -⟩ | ⟨rfl, -⟩
    · obtain ⟨n, hb⟩ := Option.isSome_iff_exists.mp hv
      obtain ⟨e', he, -, halign⟩ := hw.2.1 n hb
      cases he
      rw [halign, TypeInfo.size_of_scalar hk hw.1]
      split <;> cases kind <;> first | exact ⟨1, rfl⟩ | exact ⟨2, rfl⟩ | exact ⟨3, rfl⟩ | exact ⟨4, rfl⟩
    · obtain ⟨⟨columns, rows⟩, hb⟩ := Option.isSome_iff_exists.mp hm
      obtain ⟨e', he, halign, -⟩ := hw.2.2.1 columns rows hb
      cases he
      rw [halign, TypeInfo.size_of_scalar hk hw.1]
      split <;> cases kind <;> first | exact ⟨1, rfl⟩ | exact ⟨2, rfl⟩ | exact ⟨3, rfl⟩ | exact ⟨4, rfl⟩
    · rw [(hw.2.2.2 e rfl rfl).2]
      exact (powerOfTwo_scalar hk hw.1).1

theorem MemberInfo.Regular.powerOfTwo : ∀ {members : List MemberInfo} {next finish : Nat},
    MemberInfo.Regular members → MemberInfo.Placed members next finish →
    MemberInfo.OfScalars members → ∀ m ∈ members, m.align.isPowerOfTwo
  | [], _, _, _, _, _, m, hm => by cases hm
  | .mk name type offset size align :: rest, _, _, hr, hp, hs, m, hm => by
    rcases List.mem_cons.mp hm with rfl | hrest
    · exact MemberInfo.powerOfTwo_align (hr.1.powerOfTwo hp.1 hs.1) hr.2.1
    · exact MemberInfo.Regular.powerOfTwo hr.2.2 hp.2.2.2.2.2 hs.2 m hrest

end

/-- A part of a regular type is regular, starts at a multiple of its alignment, and the whole is
aligned so that this goes for every place of the whole. -/
theorem TypeInfo.HasPart.aligned {t part : TypeInfo} {i start : Nat} (h : t.HasPart i start part)
    (hw : t.WellLaid) (hs : t.OfScalars) (hr : t.Regular) :
    part.Regular ∧ part.align ∣ start ∧ part.align ∣ t.align := by
  have hpart := h.inside hw hs
  have hwhole := hr.powerOfTwo hw hs
  cases h with
  | @element _ _ _ _ _ stride _ _ hi =>
    refine ⟨hr.1, Dvd.dvd.mul_left ?_ _, by rw [TypeInfo.align, hw.2.1]⟩
    have hpos := Nat.pos_of_isPowerOfTwo (hr.1.powerOfTwo hw.1 hs.1)
    have hstride := hr.2
    unfold TypeInfo.writtenStride? at hstride
    split at hstride
    · rename_i hround
      exact dvd_of_checkedRoundUp hround hpos
    · exact hstride stride rfl
  | member hm =>
    obtain ⟨hrm, hwritten⟩ := hr.get hm
    obtain ⟨finish, hplaced, -, hgreatest⟩ := hw
    obtain ⟨hwm, hle, ⟨n, hround⟩, -, -⟩ := hplaced.get hm
    have htype := hrm.powerOfTwo hwm hpart.2.1
    have hmember := MemberInfo.powerOfTwo_align htype hwritten
    have hdvd := dvd_of_powers htype hmember hle
    have hmem := List.mem_map_of_mem (f := MemberInfo.align) (List.mem_of_getElem? hm)
    refine ⟨hrm, hdvd.trans (dvd_of_checkedRoundUp hround (Nat.pos_of_isPowerOfTwo hmember)), ?_⟩
    exact hdvd.trans (dvd_of_powers hmember hwhole (hgreatest ▸ le_greatest hmem))
  | component hb hi =>
    obtain ⟨e, kind, he, hk, -⟩ := hs
    cases he
    have halign := powerOfTwo_scalar hk hw.1
    have hsize := TypeInfo.size_of_scalar hk hw.1
    obtain ⟨e', he', -, hv⟩ := hw.2.1 _ hb
    cases he'
    have hregular : part.Regular := by
      obtain ⟨pname, pattributes, psize, palign, pshape⟩ := part
      cases hk
      trivial
    refine ⟨hregular, by rw [halign.2, hsize]; exact Dvd.intro_left _ rfl, ?_⟩
    rw [TypeInfo.align, hv, hsize, halign.2]
    split <;> cases kind <;> decide
  | column hb hi =>
    obtain ⟨e, kind, he, hk, -⟩ := hs
    cases he
    obtain ⟨e', he', hv, -⟩ := hw.2.2.1 _ _ hb
    cases he'
    have hsame : (TypeInfo.columnOf _ _).align = _ :=
      (congrArg TypeInfo.align (TypeInfo.columnOf_eq (TypeInfo.rows_bounds hb).2.1 hk hw.1)).trans hv.symm
    rw [hsame]
    exact ⟨trivial, Dvd.intro_left _ rfl, Nat.dvd_refl _⟩

/-! ## Views of parts -/

/-- The position among the parts of a type of the part that a name selects. -/
def TypeInfo.position (t : TypeInfo) (name : String) : Nat :=
  match t.members? with
  | some members => members.findIdx fun m => m.name = name
  | none => ((swizzleIndices? name).bind List.head?).getD 0

namespace BufferView

/-- Members and elements lead from a view to another. The path holds the positions selected on the
way. -/
inductive Leads : BufferView → List Nat → BufferView → Prop where
  | here (v : BufferView) : Leads v [] v
  | member {v w leaf : BufferView} {name : String} {path : List Nat}
      (h : v.member name = .ok (.view w)) (rest : Leads w path leaf) :
      Leads v (v.type.position name :: path) leaf
  | element {v w leaf : BufferView} {i : Int} {runtimeCount : Nat} {path : List Nat}
      (h : v.element i runtimeCount = .ok w) (rest : Leads w path leaf) :
      Leads v (i.toNat :: path) leaf

/-- One view is the part of another at a position. -/
def Selects (v : BufferView) (i : Nat) (w : BufferView) : Prop :=
  w.buffer = v.buffer ∧ ∃ start, v.type.HasPart i start w.type ∧ w.offset = v.offset + start

theorem eq_of_shifted {v w : BufferView} {offset : Nat} {type : TypeInfo}
    (h : v.shifted offset type = .ok w) :
    w.buffer = v.buffer ∧ w.type = type ∧ w.offset = v.offset + offset := by
  unfold shifted at h
  split at h
  · rename_i sum hsum
    obtain ⟨rfl, -⟩ := checkedSize_eq_some hsum
    cases h
    exact ⟨rfl, rfl, rfl⟩
  · cases h

/-- The elements of a type made of scalars are its parts. -/
theorem hasPart_of_elements {t : TypeInfo} {count i : Nat} {e : Elements} (hs : t.OfScalars)
    (h : t.elements count = .ok e) (hi : i < e.count) : t.HasPart i (i * e.stride) e.type := by
  obtain ⟨name, attributes, size, align, shape⟩ := t
  cases shape with
  | scalar kind => cases h
  | handle => exact hs.elim
  | array element n stride =>
    obtain ⟨n, rfl⟩ := Option.isSome_iff_exists.mp hs.2.1
    cases h
    exact .element hi
  | struct key members first last => cases h
  | template base param access space =>
    obtain ⟨e', kind, rfl, hk, hbase⟩ := hs
    rcases hbase with hv | ⟨hm, -⟩ | ⟨rfl, -⟩
    · obtain ⟨n, hb⟩ := Option.isSome_iff_exists.mp hv
      rw [TypeInfo.elements_vector hb] at h
      cases h
      exact .component hb hi
    · obtain ⟨⟨columns, rows⟩, hb⟩ := Option.isSome_iff_exists.mp hm
      rw [TypeInfo.elements_matrix hb] at h
      cases h
      exact .column hb hi
    · cases h

theorem selects_of_element {v w : BufferView} {i : Int} {count : Nat} (hs : v.type.OfScalars)
    (h : v.element i count = .ok w) : v.Selects i.toNat w := by
  unfold element at h
  cases he : v.type.elements count with
  | error _ =>
    rw [he] at h
    cases h
  | ok e =>
    simp only [he, bind, Except.bind] at h
    split at h
    · cases h
    · rename_i hi
      split at h
      · rename_i offset hoffset
        obtain ⟨rfl, -⟩ := checkedSize_eq_some hoffset
        obtain ⟨hb, ht, ho⟩ := eq_of_shifted h
        refine ⟨hb, i.toNat * e.stride, ?_, ho⟩
        rw [ht]
        exact hasPart_of_elements hs he (by omega)
      · cases h

/-- A single letter selects the component of its position. -/
theorem selects_of_swizzled {v w : BufferView} {name : String} {length : Nat}
    (hs : v.type.OfScalars) (hm : v.type.members? = none)
    (h : v.swizzled length name = .ok (.view w)) : v.Selects (v.type.position name) w := by
  unfold swizzled at h
  split at h
  · cases h
  · rename_i indices hindices
    split at h
    · cases h
    · split at h
      · rename_i i _
        have hposition : v.type.position name = (i : Int).toNat := by
          simp only [TypeInfo.position, hm, hindices]
          rfl
        cases he : v.element i 0 with
        | error _ =>
          rw [he] at h
          cases h
        | ok x =>
          rw [he] at h
          cases h
          rw [hposition]
          exact selects_of_element hs he
      · cases h

theorem selects_of_member {v w : BufferView} {name : String} (hs : v.type.OfScalars)
    (h : v.member name = .ok (.view w)) : v.Selects (v.type.position name) w := by
  unfold member at h
  split at h
  · rename_i m hfound
    cases hv : v.shifted m.offset m.type with
    | error _ =>
      rw [hv] at h
      cases h
    | ok x =>
      rw [hv] at h
      cases h
      obtain ⟨hb, ht, ho⟩ := eq_of_shifted hv
      refine ⟨hb, m.offset, ?_, ho⟩
      obtain ⟨buffer, offset, type⟩ := v
      obtain ⟨tname, attributes, size, align, shape⟩ := type
      cases shape with
      | struct key members first last =>
        have hget : members[members.findIdx fun m => m.name = name]? = some m :=
          List.find?_eq_getElem?_findIdx.symm.trans hfound
        rw [ht]
        exact .member hget
      | _ => cases hfound
  · rename_i hnone
    split at h
    · rename_i length hlength
      refine selects_of_swizzled hs ?_ h
      obtain ⟨buffer, offset, type⟩ := v
      obtain ⟨tname, attributes, size, align, shape⟩ := type
      cases shape with
      | struct key members first last => cases hlength
      | _ => rfl
    · cases h

/-- A path is empty or selects a part and goes on from there. -/
theorem Leads.selects {v leaf : BufferView} {path : List Nat} (h : v.Leads path leaf)
    (hs : v.type.OfScalars) : (path = [] ∧ leaf = v) ∨
      ∃ i rest w, path = i :: rest ∧ v.Selects i w ∧ w.Leads rest leaf := by
  cases h with
  | here => exact .inl ⟨rfl, rfl⟩
  | member h rest => exact .inr ⟨_, _, _, rfl, selects_of_member hs h, rest⟩
  | element h rest => exact .inr ⟨_, _, _, rfl, selects_of_element hs h, rest⟩

/-! ## Paths -/

/-- Where a path leads to lies inside the view that it starts from. -/
theorem Leads.inside {path : List Nat} : ∀ {v leaf : BufferView}, v.Leads path leaf →
    v.type.WellLaid → v.type.OfScalars → leaf.type.WellLaid ∧ leaf.type.OfScalars ∧
      leaf.buffer = v.buffer ∧ v.offset ≤ leaf.offset ∧
        leaf.offset + leaf.type.size ≤ v.offset + v.type.size := by
  induction path with
  | nil =>
    intro v leaf h hw hs
    obtain ⟨-, rfl⟩ | ⟨i, rest, w, hcons, -⟩ := h.selects hs
    · exact ⟨hw, hs, rfl, Nat.le_refl _, Nat.le_refl _⟩
    · cases hcons
  | cons i rest ih =>
    intro v leaf h hw hs
    obtain ⟨hnil, -⟩ | ⟨_, _, w, hcons, ⟨hb, start, hpart, ho⟩, hrest⟩ := h.selects hs
    · cases hnil
    · cases hcons
      obtain ⟨hww, hsw, hin⟩ := hpart.inside hw hs
      obtain ⟨h1, h2, h3, h4, h5⟩ := ih hrest hww hsw
      exact ⟨h1, h2, h3.trans hb, by omega, by omega⟩

/-- Along a path of a regular type everything is aligned. -/
theorem Leads.aligned {path : List Nat} : ∀ {v leaf : BufferView}, v.Leads path leaf →
    v.type.WellLaid → v.type.OfScalars → v.type.Regular → v.type.align ∣ v.offset →
      leaf.type.align ∣ leaf.offset := by
  induction path with
  | nil =>
    intro v leaf h hw hs hr hd
    obtain ⟨-, rfl⟩ | ⟨i, rest, w, hcons, -⟩ := h.selects hs
    · exact hd
    · cases hcons
  | cons i rest ih =>
    intro v leaf h hw hs hr hd
    obtain ⟨hnil, -⟩ | ⟨_, _, w, hcons, ⟨hb, start, hpart, ho⟩, hrest⟩ := h.selects hs
    · cases hnil
    · cases hcons
      obtain ⟨hww, hsw, -⟩ := hpart.inside hw hs
      obtain ⟨hrw, hstart, halign⟩ := hpart.aligned hw hs hr
      exact ih hrest hww hsw hrw (ho ▸ (halign.trans hd).add hstart)

end BufferView

/-! ## Leaves -/

/-- The kind of a single scalar, plain or atomic. -/
def TypeInfo.leafKind? (t : TypeInfo) : Option ScalarKind :=
  match t.shape with
  | .scalar kind => some kind
  | .template "atomic" _ _ _ => t.scalarKind?
  | _ => none

/-- A single scalar is as long as its kind, aligned like it, and has no parts. -/
theorem TypeInfo.leaf {t : TypeInfo} {kind : ScalarKind} (h : t.leafKind? = some kind)
    (hw : t.WellLaid) (hs : t.OfScalars) :
    t.size = kind.size ∧ t.align = kind.size ∧ ∀ i start part, ¬ t.HasPart i start part := by
  obtain ⟨name, attributes, size, align, shape⟩ := t
  unfold leafKind? at h
  split at h
  · rename_i found hshape
    cases hshape
    cases h
    refine ⟨hw.1, hw.2, fun i start part hpart => ?_⟩
    cases hpart
  · rename_i hshape
    cases hshape
    obtain ⟨e, found, rfl, hk, -⟩ := hs
    have hkind : found = kind := by
      have hparam := paramScalarKind?_of_scalar hk
      simp only [scalarKind?, shapeScalarKind?, hparam] at h
      exact Option.some.inj h
    subst hkind
    obtain ⟨hsize, halign⟩ := hw.2.2.2 e rfl rfl
    refine ⟨hsize.trans (size_of_scalar hk hw.1), halign.trans (powerOfTwo_scalar hk hw.1).2, ?_⟩
    intro i start part hpart
    cases hpart with
    | component hb => cases hb
    | column hb => cases hb
  · cases h

namespace BufferView

/-- The bytes of two scalars at different paths do not overlap. -/
theorem Leads.apart {path : List Nat} : ∀ {path' : List Nat} {v leaf leaf' : BufferView}
    {kind kind' : ScalarKind}, v.Leads path leaf → v.Leads path' leaf' → v.type.WellLaid →
      v.type.OfScalars → leaf.type.leafKind? = some kind → leaf'.type.leafKind? = some kind' →
        path ≠ path' → leaf.offset + kind.size ≤ leaf'.offset ∨
          leaf'.offset + kind'.size ≤ leaf.offset := by
  induction path with
  | nil =>
    intro path' v leaf leaf' kind kind' h h' hw hs hk hk' hne
    obtain ⟨-, rfl⟩ | ⟨i, rest, w, hcons, -⟩ := h.selects hs
    · obtain ⟨rfl, -⟩ | ⟨i, rest, w, -, ⟨-, start, hpart, -⟩, -⟩ := h'.selects hs
      · exact absurd rfl hne
      · exact absurd hpart ((TypeInfo.leaf hk hw hs).2.2 i start w.type)
    · cases hcons
  | cons i rest ih =>
    intro path' v leaf leaf' kind kind' h h' hw hs hk hk' hne
    obtain ⟨hnil, -⟩ | ⟨_, _, w, hcons, ⟨hb, start, hpart, ho⟩, hrest⟩ := h.selects hs
    · cases hnil
    · cases hcons
      obtain ⟨rfl, rfl⟩ | ⟨i', rest', w', rfl, ⟨hb', start', hpart', ho'⟩, hrest'⟩ := h'.selects hs
      · exact absurd hpart ((TypeInfo.leaf hk' hw hs).2.2 i start w.type)
      · obtain ⟨hww, hsw, -⟩ := hpart.inside hw hs
        obtain ⟨hww', hsw', -⟩ := hpart'.inside hw hs
        by_cases hi : i = i'
        · subst hi
          obtain ⟨rfl, htype⟩ := hpart.unique hpart'
          have hview : w = w' := by
            obtain ⟨wb, wo, wt⟩ := w
            obtain ⟨wb', wo', wt'⟩ := w'
            cases hb.trans hb'.symm
            cases ho.trans ho'.symm
            cases htype
            rfl
          subst hview
          exact ih hrest hrest' hww hsw hk hk' fun he => hne (by rw [he])
        · obtain ⟨hlw, hls, -, hlo, hlend⟩ := hrest.inside hww hsw
          obtain ⟨hlw', hls', -, hlo', hlend'⟩ := hrest'.inside hww' hsw'
          have hsize := (TypeInfo.leaf hk hlw hls).1
          have hsize' := (TypeInfo.leaf hk' hlw' hls').1
          rcases Nat.lt_or_gt_of_ne hi with hlt | hlt
          · have hbefore := hpart.apart hpart' hlt hw hs
            exact .inl (by omega)
          · have hbefore := hpart'.apart hpart hlt hw hs
            exact .inr (by omega)

/-- Every member and every element of a view is a view. -/
def Open (v : BufferView) : Prop :=
  (∀ members m, v.type.members? = some members → m ∈ members → ∃ w, v.member m.name = .ok (.view w)) ∧
    ∀ count e (i : Nat), v.type.elements count = .ok e → i < e.count → ∃ w, v.element i count = .ok w

theorem open_of_fits {v : BufferView} (hw : v.type.WellLaid) (hs : v.type.OfScalars)
    (hfit : v.offset + v.type.size < sizeLimit) : v.Open := by
  constructor
  · intro members m hmembers hm
    obtain ⟨m', hfound⟩ : ∃ m', v.type.member? m.name = some m' := by
      simp only [TypeInfo.member?, hmembers, Option.bind_some]
      exact Option.isSome_iff_exists.mp (List.find?_isSome.mpr ⟨m, hm, by simp⟩)
    have hpart : ∃ i, v.type.HasPart i m'.offset m'.type := by
      obtain ⟨buffer, offset, type⟩ := v
      obtain ⟨name, attributes, size, align, shape⟩ := type
      cases shape with
      | struct key found first last =>
        obtain ⟨i, hi⟩ := List.mem_iff_getElem?.mp (List.mem_of_find?_eq_some hfound)
        exact ⟨i, .member hi⟩
      | _ => cases hfound
    obtain ⟨i, hpart⟩ := hpart
    have hin := (hpart.inside hw hs).2.2
    refine ⟨⟨v.buffer, v.offset + m'.offset, m'.type⟩, ?_⟩
    rw [member, hfound]
    dsimp only
    rw [shifted_ok m'.type (by omega)]
    rfl
  · intro count e i he hi
    have hin := ((hasPart_of_elements hs he hi).inside hw hs).2.2
    exact ⟨_, element_ok he hi (by omega)⟩

/-- In a module without layout errors, take a type made of scalars and a view of the whole of it. All
scalars that members and elements lead to lie inside the type; the bytes of two different ones do not
overlap; where every written alignment is a power of two and every written stride a multiple of the
alignment of its element, each starts at a multiple of its own size. No member or element on the way
is out of reach. -/
theorem leaves_apart {p : Program} {queries : List Layouts.Query} {found : List (Option TypeInfo)}
    {l : Layouts} (hl : (Layouts.answers queries).run (.ofProgram p) = .ok (found, l))
    (herr : l.errors = []) {t : TypeInfo} (ht : some t ∈ found) (hs : t.OfScalars)
    (buffer : BufferId) :
    (∀ path leaf kind, (BufferView.mk buffer 0 t).Leads path leaf → leaf.type.leafKind? = some kind →
      leaf.buffer = buffer ∧ leaf.offset + kind.size ≤ t.size) ∧
    (∀ path path' leaf leaf' kind kind', (BufferView.mk buffer 0 t).Leads path leaf →
      (BufferView.mk buffer 0 t).Leads path' leaf' → leaf.type.leafKind? = some kind →
        leaf'.type.leafKind? = some kind' → path ≠ path' →
          leaf.offset + kind.size ≤ leaf'.offset ∨ leaf'.offset + kind'.size ≤ leaf.offset) ∧
    (t.Regular → ∀ path leaf kind, (BufferView.mk buffer 0 t).Leads path leaf →
      leaf.type.leafKind? = some kind → kind.size ∣ leaf.offset) ∧
    ∀ path w, (BufferView.mk buffer 0 t).Leads path w → w.Open := by
  have hw := Layouts.wellLaid_of_answer hl herr ht
  refine ⟨?_, ?_, ?_, ?_⟩
  · intro path leaf kind h hk
    obtain ⟨hlw, hls, hb, -, hend⟩ := h.inside hw hs
    have hsize := (TypeInfo.leaf hk hlw hls).1
    dsimp only at hb hend
    exact ⟨hb, by omega⟩
  · intro path path' leaf leaf' kind kind' h h' hk hk' hne
    exact h.apart h' hw hs hk hk' hne
  · intro hr path leaf kind h hk
    obtain ⟨hlw, hls, -⟩ := h.inside hw hs
    rw [← (TypeInfo.leaf hk hlw hls).2.1]
    exact h.aligned hw hs hr (Nat.dvd_zero _)
  · intro path w h
    obtain ⟨hww, hsw, -, -, hend⟩ := h.inside hw hs
    have hlt := TypeInfo.size_lt hw hs
    dsimp only at hend
    exact open_of_fits hww hsw (by omega)

/-- Half-precision columns at a written alignment, and an array of a structure behind them. -/
theorem leaves_apart_tile :
    let cell : StructDecl :=
      { name := "Cell"
        members := [⟨"tint", .template 1 [] "vec3" (some (.named 2 [] "f32")) none none, []⟩,
          ⟨"hits", .template 3 [] "atomic" (some (.named 4 [] "u32")) none none, []⟩]
        attributes := []
        startLine := 1
        endLine := 4 }
    let tile : StructDecl :=
      { name := "Tile"
        members := [⟨"turn", .template 5 [] "mat2x3" (some (.named 6 [] "f16")) none none,
            [.mk "align" [.literal ⟨7, 6⟩ (.int 32 none)] 6]⟩,
          ⟨"cells", .array 8 [] (some (.named 9 [] "Cell")) (some 3) none, []⟩]
        attributes := []
        startLine := 5
        endLine := 8 }
    let p : Program := ⟨[.struct cell, .struct tile]⟩
    let tint : TypeInfo := .mk "vec3<f32>" [] 12 16 (.template "vec3" (some (.scalar .f32)) none none)
    let hits : TypeInfo := .mk "atomic<u32>" [] 4 4 (.template "atomic" (some (.scalar .u32)) none none)
    let cell' : TypeInfo := .mk "Cell" [] 16 16
      (.struct (.declared "Cell") [.mk "tint" tint 0 12 16, .mk "hits" hits 12 4 4] 1 4)
    let cells : TypeInfo := .mk "array<Cell, 3>" [] 48 16 (.array cell' (some 3) 16)
    let turn : TypeInfo :=
      .mk "mat2x3<f16>" [] 16 8 (.template "mat2x3" (some (.scalar .f16)) none none)
    let t : TypeInfo := .mk "Tile" [] 64 32
      (.struct (.declared "Tile") [.mk "turn" turn 0 16 32, .mk "cells" cells 16 48 16] 5 8)
    ∃ l, (Layouts.answers [.named "Tile"]).run (.ofProgram p) = .ok ([some t], l) ∧ l.errors = [] ∧
      t.OfScalars ∧ t.Regular ∧ (BufferView.mk 0 0 t).Leads [0, 1, 2] ⟨0, 12, .scalar .f16⟩ ∧
      (BufferView.mk 0 0 t).Leads [1, 2, 1] ⟨0, 60, hits⟩ ∧
      60 + 4 ≤ t.size ∧ (12 + 2 ≤ 60 ∨ 60 + 4 ≤ 12) ∧ 4 ∣ 60 := by
  intro cell tile p tint hits cell' cells turn t
  obtain ⟨l, hl, herr⟩ : ∃ l, (Layouts.answers [.named "Tile"]).run (.ofProgram p) =
      .ok ([some t], l) ∧ l.errors = [] := by
    subst p tile cell
    exact ⟨_, rfl, rfl⟩
  have hs : t.OfScalars := by
    refine ⟨⟨_, .f16, rfl, rfl, .inr (.inl ⟨rfl, .inr rfl⟩)⟩, ⟨⟨⟨_, .f32, rfl, rfl, .inl rfl⟩,
      ⟨_, .u32, rfl, rfl, .inr (.inr ⟨rfl, .inr rfl⟩)⟩, trivial⟩, rfl, by decide⟩, trivial⟩
  have hr : t.Regular := by
    have hstride : cell'.writtenStride? 16 = none := if_pos (show checkedRoundUp 16 16 = some 16 by decide)
    refine ⟨trivial, ?_, ⟨⟨trivial, ?_, trivial, ?_, trivial⟩, ?_⟩, ?_, trivial⟩
    · rintro n ⟨⟩
      exact ⟨5, rfl⟩
    · rintro n ⟨⟩
    · rintro n ⟨⟩
    · rw [hstride]
      rintro n ⟨⟩
    · rintro n ⟨⟩
  have corner : (BufferView.mk 0 0 t).Leads [0, 1, 2] ⟨0, 12, .scalar .f16⟩ := by
    have first : (BufferView.mk 0 0 t).member "turn" = .ok (.view ⟨0, 0, turn⟩) := rfl
    have second : (BufferView.mk 0 0 turn).element 1 0 =
        .ok ⟨0, 8, TypeInfo.columnOf 3 (.scalar .f16)⟩ := rfl
    have third : (BufferView.mk 0 8 (TypeInfo.columnOf 3 (.scalar .f16))).element 2 0 =
        .ok ⟨0, 12, .scalar .f16⟩ := rfl
    exact .member first (.element second (.element third (.here _)))
  have last : (BufferView.mk 0 0 t).Leads [1, 2, 1] ⟨0, 60, hits⟩ := by
    have first : (BufferView.mk 0 0 t).member "cells" = .ok (.view ⟨0, 16, cells⟩) := rfl
    have second : (BufferView.mk 0 16 cells).element 2 0 = .ok ⟨0, 48, cell'⟩ := rfl
    have third : (BufferView.mk 0 48 cell').member "hits" = .ok (.view ⟨0, 60, hits⟩) := rfl
    exact .member first (.element second (.member third (.here _)))
  obtain ⟨inside, apart, aligned, -⟩ := leaves_apart hl herr (List.mem_singleton.mpr rfl) hs 0
  refine ⟨l, hl, herr, hs, hr, corner, last, (inside _ _ _ last rfl).2, ?_, aligned hr _ _ .u32 last rfl⟩
  exact apart _ _ _ _ .f16 .u32 corner last rfl rfl (by decide)

end BufferView

end Wgsl
