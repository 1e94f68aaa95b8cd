import Wgsl.Proofs.Layout.Placement

/-! # The extent of types made of scalars

A type is made of scalars if all that lies in it are scalars, in vectors, matrices, atomics, counted
arrays and structures. The size of such a type bounds its parts: members lie one behind the other,
elements one stride apart, columns one alignment apart.
-/

namespace Wgsl
set_option autoImplicit false

mutual

/-- A type made of scalars, with a stride in which each element finds room. -/
def TypeInfo.OfScalars : TypeInfo → Prop
  | .mk _ _ _ _ shape => TypeShape.OfScalars shape

def TypeShape.OfScalars : TypeShape → Prop
  | .scalar _ => True
  | .handle => False
  | .array element count stride =>
    TypeInfo.OfScalars element ∧ count.isSome ∧ roundUp element.align element.size ≤ stride
  | .struct _ members _ _ => MemberInfo.OfScalars members
  | .template base param _ _ => ∃ e kind, param = some e ∧ e.shape = .scalar kind ∧
    ((vectorLength? base).isSome ∨ ((matrixShape? base).isSome ∧ (kind = .f32 ∨ kind = .f16)) ∨
      (base = "atomic" ∧ (kind = .i32 ∨ kind = .u32)))

def MemberInfo.OfScalars : List MemberInfo → Prop
  | [] => True
  | .mk _ type _ _ _ :: rest => TypeInfo.OfScalars type ∧ MemberInfo.OfScalars rest

end

/-! ## Sizes of generated types -/

namespace TypeInfo

theorem size_of_scalar {e : TypeInfo} {kind : ScalarKind} (h : e.shape = .scalar kind)
    (hw : e.WellLaid) : e.size = kind.size := by
  obtain ⟨name, attributes, size, align, shape⟩ := e
  simp only [TypeInfo.shape] at h
  subst h
  exact hw.1

theorem vectorLength_bounds {base : String} {n : Nat} (h : Wgsl.vectorLength? base = some n) :
    2 ≤ n ∧ n ≤ 4 := by
  unfold Wgsl.vectorLength? at h
  split at h <;> cases h <;> exact ⟨by decide, by decide⟩

theorem size_of_vector {name base : String} {attributes : List Attribute} {size align n : Nat}
    {e : TypeInfo} {kind : ScalarKind} {access space : Option String}
    (hb : Wgsl.vectorLength? base = some n) (he : e.shape = .scalar kind)
    (hw : (TypeInfo.mk name attributes size align (.template base (some e) access space)).WellLaid) :
    size = n * e.size := by
  obtain ⟨hp, hv, -, -⟩ := hw
  obtain ⟨e', h, hsize, -⟩ := hv n hb
  cases h
  have hs := size_of_scalar he hp
  have hn := (vectorLength_bounds hb).2
  rw [hsize, hs]
  apply Nat.mod_eq_of_lt
  have hlim : sizeLimit = 4294967296 := rfl
  cases kind <;> simp only [ScalarKind.size] <;> omega

/-- The columns of a matrix fill it, and each has room for its rows. -/
theorem size_of_matrix {name base : String} {attributes : List Attribute}
    {size align columns rows : Nat} {e : TypeInfo} {kind : ScalarKind} {access space : Option String}
    (hb : Wgsl.matrixShape? base = some (columns, rows)) (he : e.shape = .scalar kind)
    (hw : (TypeInfo.mk name attributes size align (.template base (some e) access space)).WellLaid) :
    size = columns * align ∧ rows * e.size ≤ align := by
  obtain ⟨hp, -, hm, -⟩ := hw
  obtain ⟨e', h, halign, hsize⟩ := hm columns rows hb
  cases h
  rw [size_of_scalar he hp] at halign hsize ⊢
  unfold Wgsl.matrixShape? at hb
  split at hb <;> cases hb <;> cases kind <;> subst halign <;> subst hsize <;> decide

end TypeInfo

theorem MemberInfo.Placed.le {members : List MemberInfo} {next finish : Nat}
    (h : MemberInfo.Placed members next finish) : next ≤ finish := by
  induction members generalizing next with
  | nil => exact Nat.le_of_eq h
  | cons m rest ih =>
    obtain ⟨name, type, offset, size, align⟩ := m
    obtain ⟨-, -, -, hround, -, hrest⟩ := h
    have h1 := le_of_checkedRoundUp hround
    have h2 := ih hrest
    omega

theorem MemberInfo.Placed.lt {members : List MemberInfo} {next finish : Nat}
    (h : MemberInfo.Placed members next finish) (hn : next < sizeLimit) : finish < sizeLimit := by
  induction members generalizing next with
  | nil =>
    have e : next = finish := h
    omega
  | cons m rest ih =>
    obtain ⟨name, type, offset, size, align⟩ := m
    obtain ⟨-, -, -, -, hlt, hrest⟩ := h
    exact ih hrest hlt

namespace TypeInfo

/-- Sizes are below the limit. -/
theorem size_lt {t : TypeInfo} (hw : t.WellLaid) (hs : t.OfScalars) : t.size < sizeLimit := by
  have hpos : 0 < sizeLimit := by decide
  obtain ⟨name, attributes, size, align, shape⟩ := t
  simp only [TypeInfo.size]
  cases shape with
  | scalar kind =>
    rw [hw.1]
    cases kind <;> decide
  | handle => exact hs.elim
  | array element count stride =>
    obtain ⟨n, rfl⟩ := Option.isSome_iff_exists.mp hs.2.1
    exact (hw.2.2 n rfl).2
  | struct key members first last =>
    obtain ⟨finish, hp, hround, -⟩ := hw
    exact lt_of_checkedRoundUp hround (hp.lt hpos)
  | template base param access space =>
    obtain ⟨e, kind, rfl, he, hkind⟩ := hs
    rcases hkind with hv | ⟨hm, -⟩ | ⟨rfl, -⟩
    · obtain ⟨n, hb⟩ := Option.isSome_iff_exists.mp hv
      obtain ⟨e', -, hsize, -⟩ := hw.2.1 n hb
      rw [hsize]
      exact Nat.mod_lt _ hpos
    · obtain ⟨⟨columns, rows⟩, hb⟩ := Option.isSome_iff_exists.mp hm
      obtain ⟨e', -, -, hsize⟩ := hw.2.2.1 columns rows hb
      rw [hsize]
      exact Nat.mod_lt _ hpos
    · rw [(hw.2.2.2 e rfl rfl).1, size_of_scalar he hw.1]
      cases kind <;> decide

theorem size_le_stride {t : TypeInfo} {stride : Nat} (hw : t.WellLaid) (hs : t.OfScalars)
    (h : roundUp t.align t.size ≤ stride) : t.size ≤ stride :=
  (le_roundUp (size_lt hw hs)).trans h

end TypeInfo

end Wgsl
