import Wgsl.Proofs.Layout.Leaves
import Wgsl.Proofs.Memory.Outline

/-! # What a store leaves alone

A store through a view writes bytes of the scalars that lie in the view, and nothing else. This goes
for every value: one of another shape is spread, cut off or refused, and a store that is refused half
way has written some of the scalars.

* `BufferView.Holds`: a view, its parts, their parts and so on.
* `BufferView.Covers`: the bytes of the scalars that lie in a view.
* `Memory.kept`: the textures and one byte, which a store that does not cover the byte fixes.
* `Memory.store_frame`: what a store leaves alone, whatever its outcome.
-/

namespace Wgsl
set_option autoImplicit false

/-! ## The bytes of a view -/

namespace BufferView

/-- A view is one of the parts of another, or lies in one of them. -/
inductive Holds : BufferView → BufferView → Prop where
  | here (v : BufferView) : Holds v v
  | part {v w leaf : BufferView} {i : Nat} (h : v.Selects i w) (rest : Holds w leaf) : Holds v leaf

/-- The byte belongs to a scalar that lies in the view. -/
def Covers (v : BufferView) (i : Nat) : Prop :=
  ∃ leaf kind, v.Holds leaf ∧ leaf.type.leafKind? = some kind ∧
    leaf.offset ≤ i ∧ i < leaf.offset + kind.size

/-- The byte of a buffer does not belong to a scalar that lies in the view. -/
def Spares (v : BufferView) (buffer : BufferId) (i : Nat) : Prop := buffer = v.buffer → ¬ v.Covers i

variable {v w : BufferView} {buffer : BufferId} {i k : Nat}

theorem Spares.part (h : v.Spares buffer i) (hs : v.Selects k w) : w.Spares buffer i :=
  fun hb ⟨leaf, kind, hold, hk, range⟩ =>
    h (hb.trans hs.1) ⟨leaf, kind, .part hs hold, hk, range⟩

theorem Spares.leaf {kind : ScalarKind} (h : v.Spares buffer i) (hk : v.type.leafKind? = some kind)
    (hb : buffer = v.buffer) : i < v.offset ∨ v.offset + kind.size ≤ i := by
  have outside : ¬ (v.offset ≤ i ∧ i < v.offset + kind.size) := fun range =>
    h hb ⟨v, kind, .here v, hk, range⟩
  omega

/-- An element has the type of the elements. -/
theorem type_of_element {j : Int} {count : Nat} {e : Elements} (he : v.type.elements count = .ok e)
    (h : v.element j count = .ok w) : w.type = e.type := by
  simp only [element, he, bind, Except.bind] at h
  split at h
  · cases h
  · split at h
    · exact (eq_of_shifted h).2.1
    · cases h

end BufferView

/-! ## One byte -/

namespace Memory

open Change

/-- A byte of a buffer. -/
def byte? (m : Memory) (buffer : BufferId) (i : Nat) : Option UInt8 := (m.buffers[buffer]?).bind (·[i]?)

/-- The textures and a byte. -/
def kept (buffer : BufferId) (i : Nat) (m : Memory) : Array Texture × Option UInt8 :=
  (m.textures, m.byte? buffer i)

variable {b : BufferId} {i : Nat}

theorem kept_write {buffer : BufferId} {start : Nat} {bytes : List UInt8}
    (h : b = buffer → i < start ∨ start + bytes.length ≤ i) (m : Memory) :
    kept b i (write buffer start bytes m) = kept b i m := by
  refine congrArg (m.textures, ·) ?_
  unfold byte? write
  rw [Array.getElem?_modify]
  split
  · rename_i hb
    cases m.buffers[b]? with
    | none => rfl
    | some data => exact Bytes.getElem?_write_outside data (h hb.symm)
  · rfl

theorem fixes_kept_storeScalar {kind : ScalarKind} {buffer : BufferId} {start : Nat} (value : Value)
    (h : b = buffer → i < start ∨ start + kind.size ≤ i) :
    Fixes (kept b i) (storeScalar kind buffer start value) := by
  refine Fixes.reading fun m => fixes_lift_bind fun _ => fixes_lift_bind_of fun bytes henc => ?_
  refine fixes_modify fun m => kept_write ?_ m
  rw [ScalarKind.length_of_encode henc]
  exact h

/-! ## Stores -/

theorem fixes_kept_scalar {v : BufferView} {kind : ScalarKind} (value : Value)
    (hk : v.type.shape = .scalar kind) (h : v.Spares b i) :
    Fixes (kept b i) (storeAt v.buffer v.type v.offset value) := by
  rw [storeAt_scalar _ _ hk]
  refine fixes_kept_storeScalar value (h.leaf ?_)
  rw [TypeInfo.leafKind?, hk]

/-- The components of a vector, or of a column of a matrix. -/
theorem fixes_kept_storeComponents {v : BufferView} {e : TypeInfo} {kind : ScalarKind} {length : Nat}
    (value : Value) (hk : e.shape = .scalar kind) (hs : v.type.OfScalars)
    (he : v.type.elements 0 = .ok ⟨e, e.size, length⟩) (h : v.Spares b i) :
    Fixes (kept b i) (storeComponents length v (some e) value) := by
  rw [storeComponents]
  refine fixes_lift_bind fun parts => fixes_forM (fun part => ?_) _
  refine fixes_lift_bind_of fun w hw => ?_
  have selected := BufferView.selects_of_element hs hw
  have htype : w.type = e := BufferView.type_of_element he hw
  rw [← selected.1, ← htype]
  exact fixes_kept_scalar _ (htype ▸ hk) (h.part selected)

/-- The columns of a matrix, the components of a vector, or an atomic. -/
theorem fixes_kept_template {buffer offset size align : Nat} {name base : String}
    {attributes : List Attribute} {param : Option TypeInfo} {access space : Option String}
    (value : Value)
    (hs : (TypeInfo.mk name attributes size align (.template base param access space)).OfScalars)
    (h : (BufferView.mk buffer offset
      (.mk name attributes size align (.template base param access space))).Spares b i) :
    Fixes (kept b i) (storeAt buffer (.mk name attributes size align
      (.template base param access space)) offset value) := by
  obtain ⟨e, kind, rfl, hk, hbase⟩ := id hs
  rw [storeAt, storeShape]
  rcases hbase with hv | ⟨hm, -⟩ | ⟨rfl, -⟩
  · obtain ⟨length, hb⟩ := Option.isSome_iff_exists.mp hv
    simp only [TypeInfo.matrixShape?_eq_none hb, hb]
    exact fixes_kept_storeComponents value hk hs (TypeInfo.elements_vector hb 0) h
  · obtain ⟨⟨columns, rows⟩, hb⟩ := Option.isSome_iff_exists.mp hm
    simp only [hb]
    refine fixes_lift_bind fun parts => fixes_forM (fun part => ?_) _
    refine fixes_lift_bind_of fun w hw => ?_
    have htype : w.type = .columnOf rows e :=
      BufferView.type_of_element (TypeInfo.elements_matrix hb 0) hw
    have hvec := (TypeInfo.rows_bounds hb).2.2
    refine fixes_kept_storeComponents _ hk ?_ ?_ (h.part (BufferView.selects_of_element hs hw))
    · rw [htype]
      exact ⟨e, kind, rfl, hk, .inl (by rw [hvec]; rfl)⟩
    · rw [htype]
      exact TypeInfo.elements_vector hvec 0
  · have hparam := TypeInfo.paramScalarKind?_of_scalar hk
    rw [hparam]
    refine fixes_kept_storeScalar value (h.leaf ?_)
    simp only [TypeInfo.leafKind?, TypeInfo.shape, TypeInfo.scalarKind?, TypeInfo.shapeScalarKind?,
      hparam]
    rfl

mutual

/-- A store leaves a byte alone that its view spares, whatever the value is and whether or not the
store comes to its end. -/
theorem fixes_kept_storeAt : ∀ (t : TypeInfo) (buffer offset : Nat) (value : Value), t.OfScalars →
    (BufferView.mk buffer offset t).Spares b i → Fixes (kept b i) (storeAt buffer t offset value)
  | .mk _ _ _ _ (.scalar _), _, _, value, _, h => fixes_kept_scalar value rfl h
  | .mk _ _ _ _ .handle, _, _, _, hs, _ => hs.elim
  | .mk name attributes size align (.array element count stride), buffer, offset, value, hs, h => by
    obtain ⟨hse, hcount, -⟩ := id hs
    obtain ⟨n, rfl⟩ := Option.isSome_iff_exists.mp hcount
    rw [storeAt]
    cases value with
    | array items =>
      rw [storeShape]
      refine Fixes.reading fun m => fixes_forM (fun item => ?_) _
      refine fixes_lift_bind_of fun w hw => ?_
      have selected := BufferView.selects_of_element hs hw
      have htype : w.type = element := BufferView.type_of_element rfl hw
      refine fixes_kept_storeAt element buffer w.offset _ hse ?_
      have hbuffer : w.buffer = buffer := selected.1
      have spared := h.part selected
      rw [← htype, ← hbuffer]
      exact spared
    | _ =>
      rw [storeShape]
      · exact fixes_throw _
      · nofun
  | .mk name attributes size align (.struct key members first last), buffer, offset, value, hs, h => by
    rw [storeAt]
    cases value with
    | struct found fields =>
      rw [storeShape]
      refine fixes_kept_storeMembers members _ fields hs fun m hm => ?_
      obtain ⟨k, hk⟩ := List.mem_iff_getElem?.mp hm
      exact h.part ⟨rfl, m.offset, .member hk, rfl⟩
    | _ =>
      rw [storeShape]
      · exact fixes_throw _
      · nofun
  | .mk _ _ _ _ (.template _ _ _ _), _, _, value, hs, h => fixes_kept_template value hs h

theorem fixes_kept_storeMembers : ∀ (members : List MemberInfo) (v : BufferView)
    (fields : List (String × Value)), MemberInfo.OfScalars members →
    (∀ m ∈ members, (BufferView.mk v.buffer (v.offset + m.offset) m.type).Spares b i) →
    Fixes (kept b i) (storeMembers v fields members)
  | [], _, _, _, _ => by
    rw [storeMembers]
    exact fixes_pure _
  | .mk name type offset size align :: rest, v, fields, hs, h => by
    have others : Fixes (kept b i) (storeMembers v fields rest) :=
      fixes_kept_storeMembers rest v fields hs.2 fun m hm => h m (List.mem_cons_of_mem _ hm)
    rw [storeMembers]
    split
    · refine fixes_lift_bind_of fun w hw => ?_
      obtain ⟨-, -, hoffset⟩ := BufferView.eq_of_shifted hw
      rw [hoffset]
      exact (fixes_kept_storeAt type v.buffer _ _ hs.1 (h _ List.mem_cons_self)).bind fun _ => others
    · exact others

end

/-! ## The frame -/

/-- Buffers of the same length with the same bytes are the same. -/
theorem buffer_ext {m m' : Memory} (hsize : (m'.outline).1 = (m.outline).1)
    (h : ∀ i, m'.byte? b i = m.byte? b i) : m'.buffers[b]? = m.buffers[b]? := by
  have sizes : (m'.buffers[b]?).map Array.size = (m.buffers[b]?).map Array.size := by
    rw [← Array.getElem?_map, ← Array.getElem?_map]
    exact congrArg (·[b]?) hsize
  unfold byte? at h
  cases hb : m.buffers[b]? with
  | none =>
    rw [hb] at sizes
    exact Option.map_eq_none_iff.1 sizes
  | some data =>
    cases hb' : m'.buffers[b]? with
    | none =>
      rw [hb, hb'] at sizes
      cases sizes
    | some data' =>
      rw [hb, hb'] at h
      exact congrArg some (Array.ext_getElem? fun i => h i)

/-- Whatever value is stored through a view of a type made of scalars, and whether or not the store
comes to its end: no buffer changes its length, the other buffers and the textures stay as they are,
and so does every byte of the view's buffer that belongs to none of the scalars in the view. -/
theorem store_frame {v : BufferView} (hs : v.type.OfScalars) (value : Value) {m m' : Memory}
    {outcome : Run Unit} (h : (store v value).apply m = (outcome, m')) :
    m'.buffers.map Array.size = m.buffers.map Array.size ∧ m'.textures = m.textures ∧
      (∀ b, b ≠ v.buffer → m'.buffers[b]? = m.buffers[b]?) ∧
      ∀ i, ¬ v.Covers i → m'.byte? v.buffer i = m.byte? v.buffer i := by
  obtain rfl : ((store v value).apply m).2 = m' := congrArg Prod.snd h
  have sizes := congrArg Prod.fst (fixes_storeAt v.buffer v.type v.offset value m)
  have bytes : ∀ b i, v.Spares b i → kept b i ((store v value).apply m).2 = kept b i m :=
    fun b i spared => fixes_kept_storeAt v.type v.buffer v.offset value hs spared m
  refine ⟨sizes, ?_, fun b hb => buffer_ext sizes fun i => ?_, fun i hi => ?_⟩
  · have other : v.Spares (v.buffer + 1) 0 := fun hb => absurd hb (Nat.succ_ne_self _)
    exact congrArg Prod.fst (bytes _ _ other)
  · exact congrArg Prod.snd (bytes b i fun he => absurd he hb)
  · exact congrArg Prod.snd (bytes v.buffer i fun _ => hi)

/-- A store into a spaced array is refused at its second item: the first is written, and the bytes
between the elements stay. -/
theorem store_frame_spaced :
    let v : BufferView :=
      ⟨0, 4, .mk "array<f32, 2>" [] 32 4 (.array (.scalar .f32) (some 2) 16)⟩
    let m : Memory := { buffers := #[Array.replicate 40 0xaa, #[1, 2]] }
    ∃ e m', (store v (.array [.f32 ⟨0x3f800000⟩, .array []])).apply m = (.error e, m') ∧
      m'.byte? 0 4 = some 0 ∧ v.type.OfScalars ∧ ¬ v.Covers 12 ∧ m'.byte? 0 12 = some 0xaa ∧
      m'.buffers[1]? = some #[1, 2] := by
  intro v m
  have hs : v.type.OfScalars := ⟨trivial, rfl, by decide⟩
  have between : ¬ v.Covers 12 := by
    rintro ⟨leaf, kind, hold, hk, range⟩
    cases hold with
    | here => cases hk
    | @part _ w _ _ selected rest =>
      obtain ⟨buffer, offset, type⟩ := w
      obtain ⟨-, start, hpart, hoffset⟩ := selected
      cases hpart with
      | element hi =>
        cases rest with
        | here =>
          cases hk
          have hstart : v.offset = 4 := rfl
          simp only [ScalarKind.size] at range hoffset
          omega
        | part selected _ =>
          obtain ⟨-, _, hpart, -⟩ := selected
          cases hpart
  have failed : ((store v (.array [.f32 ⟨0x3f800000⟩, .array []])).apply m).1.isOk = false := by
    decide +kernel
  have written : ((store v (.array [.f32 ⟨0x3f800000⟩, .array []])).apply m).2.byte? 0 4 = some 0 := by
    decide +kernel
  cases hrun : (store v (.array [.f32 ⟨0x3f800000⟩, .array []])).apply m with
  | mk outcome m' =>
    rw [hrun] at failed written
    obtain ⟨-, -, others, bytes⟩ := store_frame hs _ hrun
    cases outcome with
    | ok _ => cases failed
    | error e => exact ⟨e, m', rfl, written, hs, between, bytes 12 between, others 1 (by decide)⟩

end Memory

end Wgsl
