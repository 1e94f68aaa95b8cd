import Mathlib.Data.Set.List
import Wgsl.Memory.Path
import Wgsl.Proofs.Layout.Leaves
import Wgsl.Proofs.Value.Assigning

/-! # Reading a part of a buffer

A path is read by narrowing the view and loading what is left of it. Where the whole can be loaded,
that is the same as loading the whole and reading the path in the value.

* `TypeInfo.ScalarComponents`: the types whose vectors are made of scalars.
* `Memory.Shows`: a part of a view is there if and only if the part of the value is, and shows it.
* `Memory.shows_index`, `Memory.shows_member`: one access.
* `Memory.readPath_iff`: a whole path.

Nothing is asked of the layout: whether parts overlap makes no difference to reading.
-/

namespace Wgsl
set_option autoImplicit false

open Number (Single)

mutual

/-- The components of all vectors in the type are scalars, and those of all matrices are floats. -/
def TypeInfo.ScalarComponents : TypeInfo → Prop
  | .mk _ _ _ _ shape => TypeShape.ScalarComponents shape

def TypeShape.ScalarComponents : TypeShape → Prop
  | .array element _ _ => TypeInfo.ScalarComponents element
  | .struct _ members _ _ => MemberInfo.ScalarComponents members
  | .template base param _ _ => ∀ e, param = some e →
    ((vectorLength? base).isSome → ∃ kind, e.shape = .scalar kind) ∧
      ((matrixShape? base).isSome → e.shape = .scalar .f32 ∨ e.shape = .scalar .f16)
  | _ => True

def MemberInfo.ScalarComponents : List MemberInfo → Prop
  | [] => True
  | .mk _ type _ _ _ :: rest => TypeInfo.ScalarComponents type ∧ MemberInfo.ScalarComponents rest

end

namespace TypeInfo

theorem ScalarComponents.shape {t : TypeInfo} (h : t.ScalarComponents) :
    t.shape.ScalarComponents := by
  obtain ⟨_, _, _, _, _⟩ := t
  exact h

theorem scalarComponents_of_scalar {e : TypeInfo} {kind : ScalarKind} (h : e.shape = .scalar kind) :
    e.ScalarComponents := by
  obtain ⟨_, _, _, _, shape⟩ := e
  cases h
  trivial

/-- The elements of a vector are its components. -/
theorem elements_of_vector {t e : TypeInfo} {base : String} {access space : Option String}
    {length : Nat} (h : t.shape = .template base (some e) access space)
    (hb : Wgsl.vectorLength? base = some length) (count : Nat) :
    t.elements count = .ok ⟨e, e.size, length⟩ := by
  obtain ⟨_, _, _, _, _⟩ := t
  cases h
  exact elements_vector hb count

/-- The elements of a matrix are its columns. -/
theorem elements_of_matrix {t e : TypeInfo} {base : String} {access space : Option String}
    {columns rows : Nat} (h : t.shape = .template base (some e) access space)
    (hb : Wgsl.matrixShape? base = some (columns, rows)) (count : Nat) :
    t.elements count = .ok ⟨columnOf rows e, t.align, columns⟩ := by
  obtain ⟨_, _, _, _, _⟩ := t
  cases h
  exact elements_matrix hb count

theorem columns_pos {base : String} {columns rows : Nat}
    (h : Wgsl.matrixShape? base = some (columns, rows)) : 0 < columns := by
  unfold Wgsl.matrixShape? at h
  split at h <;> cases h <;> decide

theorem vectorLength?_eq_none {base : String} {columns rows : Nat}
    (h : Wgsl.matrixShape? base = some (columns, rows)) : Wgsl.vectorLength? base = none := by
  cases hb : Wgsl.vectorLength? base with
  | none => rfl
  | some length =>
    rw [matrixShape?_eq_none hb] at h
    cases h

end TypeInfo

/-! ## Runs that succeed -/

namespace Run

variable {α β : Type}

theorem bind_ok {r : Run α} {f : α → Run β} {b : β} (h : (r >>= f) = .ok b) :
    ∃ a, r = .ok a ∧ f a = .ok b := by
  cases r with
  | error e => cases h
  | ok a => exact ⟨a, rfl, h⟩

theorem map_ok {r : Run α} {f : α → β} {b : β} (h : f <$> r = .ok b) :
    ∃ a, r = .ok a ∧ f a = b := by
  cases r with
  | error e => cases h
  | ok a => exact ⟨a, rfl, Except.ok.inj h⟩

/-- What is computed for a range of numbers is computed for each of them. -/
theorem values_ok {f : Nat → Run α} {count : Nat} {xs : List α} (h : values count f = .ok xs) :
    xs.length = count ∧ ∀ i x, xs[i]? = some x → f i = .ok x := by
  have from_ : ∀ count start found xs, valuesFrom f count start found = .ok xs →
      ∃ later, xs = found.reverse ++ later ∧ later.length = count ∧
        ∀ i x, later[i]? = some x → f (start + i) = .ok x := by
    intro count
    induction count with
    | zero =>
      intro start found xs h
      cases h
      exact ⟨[], (List.append_nil _).symm, rfl, nofun⟩
    | succ count ih =>
      intro start found xs h
      rw [valuesFrom] at h
      obtain ⟨a, hf, h⟩ := bind_ok h
      obtain ⟨later, rfl, hlen, hall⟩ := ih (start + 1) (a :: found) xs h
      refine ⟨a :: later, by simp, by simp [hlen], fun i x hi => ?_⟩
      cases i with
      | zero =>
        cases hi
        exact hf
      | succ i =>
        have e : start + (i + 1) = start + 1 + i := by omega
        rw [e]
        exact hall i x hi
  obtain ⟨later, rfl, hlen, hall⟩ := from_ count 0 [] xs h
  exact ⟨hlen, fun i x hi => by simpa using hall i x hi⟩

theorem mapM_ok {f : α → Run β} {as : List α} {bs : List β} {g : α → Option β}
    (h : as.map g = bs.map some) (hf : ∀ a b, g a = some b → f a = .ok b) : as.mapM f = .ok bs := by
  induction as generalizing bs with
  | nil =>
    cases List.map_eq_nil_iff.1 h.symm
    rfl
  | cons a rest ih =>
    cases bs with
    | nil => cases h
    | cons b more =>
      obtain ⟨hb, hmore⟩ := List.cons.inj h
      rw [List.mapM_cons, hf a b hb, ih hmore]
      rfl

theorem mapM_error {f : α → Run β} {as : List α} {a : α} {e : RunError} (ha : a ∈ as)
    (h : f a = .error e) : ∃ e', as.mapM f = .error e' := by
  induction as with
  | nil => cases ha
  | cons b rest ih =>
    rw [List.mapM_cons]
    rcases List.mem_cons.1 ha with rfl | hrest
    · rw [h]
      exact ⟨e, rfl⟩
    · obtain ⟨e', he⟩ := ih hrest
      rw [he]
      cases f b with
      | error e'' => exact ⟨e'', rfl⟩
      | ok c => exact ⟨e', rfl⟩

end Run

/-! ## Elements -/

namespace BufferView

variable {v w : BufferView} {i : Int} {count : Nat} {e : Elements}

theorem element_inside (he : v.type.elements count = .ok e) (h : v.element i count = .ok w) :
    w.buffer = v.buffer ∧ w.type = e.type := by
  simp only [element, he, bind, Except.bind] at h
  split at h
  · cases h
  · split at h
    · obtain ⟨hb, ht, -⟩ := eq_of_shifted h
      exact ⟨hb, ht⟩
    · cases h

theorem element_outside (he : v.type.elements count = .ok e) (h : i < 0 ∨ e.count ≤ i.toNat) :
    v.element i count = .error (RunCause.indexOutOfBounds i e.count).unplaced := by
  simp only [element, he, bind, Except.bind, h, if_true]
  rfl

theorem element_congr {count' : Nat} (h : v.type.elements count = v.type.elements count') :
    v.element i count = v.element i count' := by
  rw [element, element, h]

theorem element_error {err : RunError} (he : v.type.elements count = .error err) :
    v.element i count = .error err := by
  simp only [element, he, bind, Except.bind]

/-- The members of a vector are its swizzles. -/
theorem member_of_vector {base : String} {param : Option TypeInfo} {access space : Option String}
    {length : Nat} (hshape : v.type.shape = .template base param access space)
    (hb : vectorLength? base = some length) (name : String) :
    v.member name = v.swizzled length name := by
  have hmember : v.type.member? name = none := by
    rw [TypeInfo.member?, TypeInfo.members?, hshape]
    rfl
  have hlength : v.type.vectorLength? = some length := by
    rw [TypeInfo.vectorLength?, TypeInfo.base?, hshape]
    exact hb
  rw [member, hmember, hlength]

end BufferView

namespace Memory

open BufferView (Part)

variable {m : Memory} {v w : BufferView} {x y : Value}

/-! ## Parts that views show -/

/-- A part of a view beside a part of a value: either none is there, or the view shows the value. Of
several components the vector shows them. -/
inductive Shows (m : Memory) : Run Part → Run Value → Prop where
  | view {w : BufferView} {y : Value} (hs : w.type.ScalarComponents) (h : m.load w = .ok y) :
      Shows m (.ok (.view w)) (.ok y)
  | swizzle {w : BufferView} {indices : List Nat} {items picked : List Value}
      (h : m.load w = .ok (.vector items))
      (hp : (indices.map fun i => items[i]?) = picked.map some) :
      Shows m (.ok (.swizzle w indices)) (.ok (.vector picked))
  | missing (e e' : RunError) : Shows m (.error e) (.error e')

/-- The load of an element starts from the view of the whole. -/
theorem load_element {e : Elements} {i : Int} {count : Nat} (he : v.type.elements count = .ok e)
    (h : (do m.loadAt v.buffer e.type (← v.element i count).offset) = .ok x) :
    ∃ w, v.element i count = .ok w ∧ m.load w = .ok x := by
  obtain ⟨w, hw, hload⟩ := Run.bind_ok h
  obtain ⟨hb, ht⟩ := BufferView.element_inside he hw
  exact ⟨w, hw, by rw [load, hb, ht]; exact hload⟩

/-- Items that are loaded one by one from the elements of a view are shown by the elements. -/
theorem shows_element {α : Type} {e : Elements} {count : Nat} {items : List α} {f : Nat → Run α}
    {g : α → Value} (he : v.type.elements count = .ok e) (hs : e.type.ScalarComponents)
    (hitems : Run.values e.count f = .ok items)
    (hf : ∀ (i : Nat) a, f i = .ok a → ∃ w, v.element i count = .ok w ∧ m.load w = .ok (g a))
    (i : Int) : Shows m (Part.view <$> v.element i count) (g <$> Value.element items i) := by
  obtain ⟨hlen, hall⟩ := Run.values_ok hitems
  by_cases hi : i < 0 ∨ e.count ≤ i.toNat
  · have hnone : (if i < 0 then none else items[i.toNat]?) = none := by
      split
      · rfl
      · exact List.getElem?_eq_none (by omega)
    rw [BufferView.element_outside he hi, Value.element, hnone]
    exact .missing _ _
  · have hlt : i.toNat < items.length := by omega
    have hcast : (i.toNat : Int) = i := by omega
    have hitem : Value.element items i = .ok items[i.toNat] :=
      Value.element_eq_ok.2 ⟨by omega, List.getElem?_eq_getElem hlt⟩
    obtain ⟨w, hw, hload⟩ := hf i.toNat _ (hall _ _ (List.getElem?_eq_getElem hlt))
    rw [hcast] at hw
    rw [hw, hitem]
    exact .view ((BufferView.element_inside he hw).2 ▸ hs) hload

/-! ## Scalars, vectors and matrices -/

/-- A scalar has no parts. -/
theorem decode_part (kind : ScalarKind) (bytes : List UInt8) (a : Access) :
    ∃ e, (kind.decode bytes).part a = .error e := by
  cases kind <;> exact ⟨_, rfl⟩

theorem loadScalar_eq_decode {kind : ScalarKind} {buffer start : Nat}
    (h : m.loadScalar kind buffer start = .ok x) : ∃ bytes, x = kind.decode bytes := by
  unfold loadScalar at h
  obtain ⟨_, -, h⟩ := Run.bind_ok h
  cases h
  exact ⟨_, rfl⟩

section

variable {base : String} {e : TypeInfo} {kind : ScalarKind} {length : Nat}
  {access space : Option String} {items : List Value}

theorem load_of_vector {param : Option TypeInfo}
    (hshape : v.type.shape = .template base param access space)
    (hb : vectorLength? base = some length) :
    m.load v = Value.vector <$> m.loadComponents length v param := by
  obtain ⟨buffer, offset, name, attributes, size, align, shape⟩ := v
  cases hshape
  rw [load, loadAt, loadShape, TypeInfo.matrixShape?_eq_none hb]
  simp only [hb]

theorem loadComponents_eq_decode (hk : e.shape = .scalar kind)
    (h : m.loadComponents length v (some e) = .ok items) :
    items.length = length ∧ ∀ item ∈ items, ∃ bytes, item = kind.decode bytes := by
  rw [loadComponents] at h
  obtain ⟨hlen, hall⟩ := Run.values_ok h
  refine ⟨hlen, fun item hitem => ?_⟩
  obtain ⟨i, hi⟩ := List.getElem?_of_mem hitem
  obtain ⟨w, -, hload⟩ := Run.bind_ok (hall i item hi)
  rw [loadAt_scalar m _ _ hk] at hload
  exact loadScalar_eq_decode hload

theorem shows_component (hshape : v.type.shape = .template base (some e) access space)
    (hb : vectorLength? base = some length) (hk : e.shape = .scalar kind)
    (h : m.loadComponents length v (some e) = .ok items) (i : Int) (count : Nat) :
    Shows m (Part.view <$> v.element i count) (Value.element items i) := by
  have he := fun count => TypeInfo.elements_of_vector hshape hb count
  rw [loadComponents] at h
  have shown := shows_element (g := id) (he 0) (TypeInfo.scalarComponents_of_scalar hk) h
    (fun i a ha => load_element (he 0) ha) i
  rwa [id_map, BufferView.element_congr ((he 0).trans (he count).symm)] at shown

/-- The components of a vector that a swizzle selects. -/
theorem shows_swizzle (hshape : v.type.shape = .template base (some e) access space)
    (hb : vectorLength? base = some length) (hk : e.shape = .scalar kind)
    (hx : m.load v = .ok (.vector items)) (h : m.loadComponents length v (some e) = .ok items)
    (swizzle : String) :
    Shows m (v.swizzled length swizzle) (Value.pick swizzle items) := by
  obtain ⟨rfl, -⟩ := loadComponents_eq_decode hk h
  unfold BufferView.swizzled
  cases hs : swizzleIndices? swizzle with
  | none =>
    rw [Value.pick, hs]
    exact .missing _ _
  | some indices =>
    rw [Value.pick_eq hs]
    dsimp only
    by_cases hout : (indices.any fun i => decide (items.length ≤ i)) = true
    · rw [if_pos hout]
      obtain ⟨i, hi, hle⟩ := List.any_eq_true.1 hout
      have hnone : Value.componentAt swizzle items i = .error (invalidSwizzle swizzle) := by
        rw [Value.componentAt, List.getElem?_eq_none (of_decide_eq_true hle)]
        rfl
      obtain ⟨err, herr⟩ := Run.mapM_error hi hnone
      rw [herr]
      exact .missing _ _
    · rw [if_neg hout]
      have hin : ∀ found ∈ indices.map fun i => items[i]?, found ∈ Set.range some := by
        intro found hfound
        obtain ⟨i, hi, rfl⟩ := List.mem_map.1 hfound
        have hlt : i < items.length := by
          by_contra hle
          exact hout (List.any_eq_true.2 ⟨i, hi, decide_eq_true (by omega)⟩)
        exact ⟨items[i], (List.getElem?_eq_getElem hlt).symm⟩
      obtain ⟨picked, hp⟩ := (Set.range_list_map some).superset hin
      rw [Run.mapM_ok hp.symm fun i c hc => Value.componentAt_eq hc]
      rcases indices with _ | ⟨i, _ | ⟨j, rest⟩⟩
      · cases List.map_eq_nil_iff.1 hp
        exact .swizzle hx rfl
      · obtain ⟨c, rfl, hc⟩ := List.map_eq_singleton_iff.1 hp
        have shown := shows_component hshape hb hk h i 0
        rw [Value.element_eq_ok.2 ⟨Int.natCast_nonneg i, hc.symm⟩] at shown
        exact shown
      · obtain ⟨c, more, rfl, -, hmore⟩ := List.map_eq_cons_iff.1 hp
        obtain ⟨d, more, rfl, -, -⟩ := List.map_eq_cons_iff.1 hmore
        exact .swizzle hx hp.symm

end

theorem load_of_matrix {base : String} {param : Option TypeInfo} {columns rows : Nat}
    {access space : Option String} (hshape : v.type.shape = .template base param access space)
    (hb : matrixShape? base = some (columns, rows)) :
    m.load v = Value.matrix <$> Run.values columns (fun (c : Nat) => do
      let items ← m.loadComponents rows (← v.element c 0) param
      items.mapM Value.number) := by
  obtain ⟨buffer, offset, name, attributes, size, align, shape⟩ := v
  cases hshape
  rw [load, loadAt, loadShape]
  simp only [hb]

/-- A column is a view of a vector, and shows the floats of the column. -/
theorem shows_column {base : String} {e : TypeInfo} {columns rows : Nat}
    {access space : Option String} {found : List (List Single)}
    (hshape : v.type.shape = .template base (some e) access space)
    (hb : matrixShape? base = some (columns, rows))
    (hk : e.shape = .scalar .f32 ∨ e.shape = .scalar .f16)
    (h : (Run.values columns fun (c : Nat) => do
      let items ← m.loadComponents rows (← v.element c 0) (some e)
      items.mapM Value.number) = .ok found) (i : Int) (count : Nat) :
    Shows m (Part.view <$> v.element i count) (Value.ofSingles <$> Value.element found i) := by
  obtain ⟨kind, hkind, hfloat⟩ : ∃ kind, e.shape = .scalar kind ∧
      ∀ bytes, ∃ f, kind.decode bytes = .f32 f := by
    rcases hk with hk | hk <;> exact ⟨_, hk, fun _ => ⟨_, rfl⟩⟩
  have he := fun count => TypeInfo.elements_of_matrix hshape hb count
  obtain ⟨-, -, hrows⟩ := TypeInfo.rows_bounds hb
  rw [BufferView.element_congr ((he count).trans (he 0).symm)]
  have hscalars : (TypeInfo.columnOf rows e).ScalarComponents := by
    intro e' he'
    cases he'
    exact ⟨fun _ => ⟨kind, hkind⟩, fun _ => hk⟩
  refine shows_element (he 0) hscalars h (fun c column hc => ?_) i
  obtain ⟨w, hw, hc⟩ := Run.bind_ok hc
  obtain ⟨items, hitems, hc⟩ := Run.bind_ok hc
  obtain ⟨-, ht⟩ := BufferView.element_inside (he 0) hw
  have hfloats : ∀ item ∈ items, item ∈ Set.range Value.f32 := fun item hi => by
    obtain ⟨bytes, rfl⟩ := (loadComponents_eq_decode hkind hitems).2 item hi
    obtain ⟨f, hf⟩ := hfloat bytes
    exact ⟨f, hf.symm⟩
  obtain ⟨floats, rfl⟩ := (Set.range_list_map Value.f32).superset hfloats
  rw [mapM_number_map_f32] at hc
  cases hc
  refine ⟨w, hw, ?_⟩
  rw [load_of_vector (by rw [ht]; rfl) hrows, hitems]
  rfl

/-! ## One access -/

/-- The part of a view that one access selects. -/
def partAt (m : Memory) (v : BufferView) : Access → Run Part
  | .index i => Part.view <$> m.element v i
  | .member name => v.member name

/-- Where there is nothing to index and there are no members, no access selects anything. -/
theorem shows_nothing {a : Access} {count : Nat → RunError}
    (he : ∀ n, v.type.elements n = .error (count n)) (hm : v.type.members? = none)
    (hv : v.type.vectorLength? = none) (hx : ∃ e, x.part a = .error e) :
    Shows m (m.partAt v a) (x.part a) := by
  obtain ⟨e, hx⟩ := hx
  rw [hx]
  cases a with
  | index i =>
    rw [partAt, element, BufferView.element_error (he _)]
    exact .missing _ _
  | member name =>
    rw [partAt, BufferView.member, TypeInfo.member?, hm, hv]
    exact .missing _ _

theorem shows_array {e : TypeInfo} {count? : Option Nat} {stride : Nat}
    (hshape : v.type.shape = .array e count? stride) (hs : v.type.ScalarComponents)
    (h : m.load v = .ok x) (a : Access) : Shows m (m.partAt v a) (x.part a) := by
  have hs := hs.shape
  rw [hshape] at hs
  have he : v.type.elements (m.runtimeCount v) = .ok ⟨e, stride, m.runtimeCount v⟩ := by
    rw [TypeInfo.elements, hshape, runtimeCount, hshape]
    cases count? <;> rfl
  have hload : m.load v = Value.array <$> Run.values (m.runtimeCount v) (fun (i : Nat) => do
      m.loadAt v.buffer e (← v.element i (m.runtimeCount v)).offset) := by
    obtain ⟨buffer, offset, name, attributes, size, align, shape⟩ := v
    cases hshape
    rw [load, loadAt, loadShape]
  rw [hload] at h
  obtain ⟨items, hitems, rfl⟩ := Run.map_ok h
  cases a with
  | index i =>
    have shown := shows_element (g := id) he hs hitems (fun i a ha => load_element he ha) i
    rwa [id_map] at shown
  | member name =>
    rw [partAt, BufferView.member, TypeInfo.member?, TypeInfo.members?, TypeInfo.vectorLength?,
      TypeInfo.base?, hshape]
    exact .missing _ _

/-- The member that a name selects is there if and only if the field is, and shows it. -/
theorem loadMembers_find? {members : List MemberInfo} {fields : List (String × Value)}
    (hs : MemberInfo.ScalarComponents members) (h : m.loadMembers v members = .ok fields)
    (name : String) :
    (∃ member value w, members.find? (fun m => m.name = name) = some member ∧
      Table.find? fields name = some value ∧ v.shifted member.offset member.type = .ok w ∧
      w.type.ScalarComponents ∧ m.load w = .ok value) ∨
    (members.find? (fun m => m.name = name) = none ∧ Table.find? fields name = none) := by
  induction members generalizing fields with
  | nil =>
    cases h
    exact .inr ⟨rfl, rfl⟩
  | cons first rest ih =>
    obtain ⟨n, type, offset, size, align⟩ := first
    rw [loadMembers] at h
    obtain ⟨w, hw, h⟩ := Run.bind_ok h
    obtain ⟨value, hload, h⟩ := Run.bind_ok h
    obtain ⟨more, hmore, h⟩ := Run.bind_ok h
    cases h
    by_cases hn : n = name
    · subst hn
      obtain ⟨hb, ht, -⟩ := BufferView.eq_of_shifted hw
      refine .inl ⟨_, value, w, List.find?_cons_of_pos (decide_eq_true rfl), ?_, hw, ht ▸ hs.1, ?_⟩
      · rw [Table.find?, List.lookup_cons_self]
      · rw [load, hb, ht]
        exact hload
    · have hother :
          (MemberInfo.mk n type offset size align :: rest).find? (fun m => m.name = name) =
            rest.find? fun m => m.name = name :=
        List.find?_cons_of_neg fun hd => hn (of_decide_eq_true hd)
      rw [hother, Table.find?, List.lookup_cons, beq_eq_false_iff_ne.mpr (Ne.symm hn)]
      exact ih hs.2 hmore

theorem shows_struct {key : StructKey} {members : List MemberInfo} {first last : Nat}
    (hshape : v.type.shape = .struct key members first last)
    (hs : MemberInfo.ScalarComponents members) (h : m.load v = .ok x) (a : Access) :
    Shows m (m.partAt v a) (x.part a) := by
  obtain ⟨buffer, offset, name, attributes, size, align, shape⟩ := v
  cases hshape
  rw [load, loadAt, loadShape] at h
  obtain ⟨fields, hfields, rfl⟩ := Run.map_ok h
  cases a with
  | index i => exact .missing _ _
  | member name =>
    simp only [partAt, BufferView.member, TypeInfo.member?, TypeInfo.members?, TypeInfo.shape,
      Option.bind_some, Value.part]
    obtain ⟨member, value, w, hmember, hvalue, hw, hscalar, hload⟩ | ⟨hmember, hvalue⟩ :=
      loadMembers_find? hs hfields name
    · rw [hmember, hvalue]
      dsimp only
      rw [hw]
      exact .view hscalar hload
    · rw [hmember, hvalue]
      exact .missing _ _

/-- Components without a type cannot be loaded. -/
theorem loadComponents_none {length : Nat} {items : List Value} (hpos : 0 < length) :
    m.loadComponents length v none ≠ .ok items := by
  intro h
  rw [loadComponents] at h
  obtain ⟨hlen, hall⟩ := Run.values_ok h
  obtain ⟨w, -, hw⟩ := Run.bind_ok (hall 0 _ (List.getElem?_eq_getElem (by omega)))
  cases hw

theorem shows_vector {base : String} {param : Option TypeInfo} {access space : Option String}
    {length : Nat} (hshape : v.type.shape = .template base param access space)
    (hb : vectorLength? base = some length) (hs : v.type.ScalarComponents) (h : m.load v = .ok x)
    (a : Access) : Shows m (m.partAt v a) (x.part a) := by
  have hx := h
  rw [load_of_vector hshape hb] at h
  obtain ⟨items, hitems, rfl⟩ := Run.map_ok h
  cases param with
  | none =>
    have hpos := (TypeInfo.vectorLength_bounds hb).1
    exact absurd hitems (loadComponents_none (by omega))
  | some e =>
    have hs := hs.shape
    rw [hshape] at hs
    obtain ⟨kind, hk⟩ := (hs e rfl).1 (by rw [hb]; rfl)
    cases a with
    | index i => exact shows_component hshape hb hk hitems i _
    | member name =>
      rw [partAt, BufferView.member_of_vector hshape hb]
      exact shows_swizzle hshape hb hk hx hitems name

theorem shows_matrix {base : String} {param : Option TypeInfo} {access space : Option String}
    {columns rows : Nat} (hshape : v.type.shape = .template base param access space)
    (hb : matrixShape? base = some (columns, rows)) (hs : v.type.ScalarComponents)
    (h : m.load v = .ok x) (a : Access) : Shows m (m.partAt v a) (x.part a) := by
  rw [load_of_matrix hshape hb] at h
  obtain ⟨found, hfound, rfl⟩ := Run.map_ok h
  cases param with
  | none =>
    obtain ⟨hlen, hall⟩ := Run.values_ok hfound
    have hpos := TypeInfo.columns_pos hb
    obtain ⟨w, -, hw⟩ := Run.bind_ok (hall 0 _ (List.getElem?_eq_getElem (by omega)))
    obtain ⟨items, hitems, -⟩ := Run.bind_ok hw
    have hrows := (TypeInfo.rows_bounds hb).1
    exact absurd hitems (loadComponents_none (by omega))
  | some e =>
    have hs := hs.shape
    rw [hshape] at hs
    cases a with
    | index i => exact shows_column hshape hb ((hs e rfl).2 (by rw [hb]; rfl)) hfound i _
    | member name =>
      rw [partAt, BufferView.member, TypeInfo.member?, TypeInfo.members?, TypeInfo.vectorLength?,
        TypeInfo.base?, hshape]
      dsimp only [Option.bind]
      rw [TypeInfo.vectorLength?_eq_none hb]
      exact .missing _ _

theorem shows_template {base : String} {param : Option TypeInfo} {access space : Option String}
    (hshape : v.type.shape = .template base param access space) (hs : v.type.ScalarComponents)
    (h : m.load v = .ok x) (a : Access) : Shows m (m.partAt v a) (x.part a) := by
  cases hm : matrixShape? base with
  | some shape => exact shows_matrix hshape hm hs h a
  | none =>
    cases hv : vectorLength? base with
    | some length => exact shows_vector hshape hv hs h a
    | none =>
      have he : ∀ n, v.type.elements n = .error (.mismatch ("cannot index " ++ v.type.name)) := by
        intro n
        rw [TypeInfo.elements, hshape, TypeInfo.matrixShape?, TypeInfo.vectorLength?,
          TypeInfo.base?, hshape]
        dsimp only [Option.bind]
        rw [hm, hv]
        rfl
      refine shows_nothing he ?_ ?_ ?_
      · rw [TypeInfo.members?, hshape]
      · rw [TypeInfo.vectorLength?, TypeInfo.base?, hshape]
        exact hv
      · obtain ⟨buffer, offset, name, attributes, size, align, shape⟩ := v
        cases hshape
        rw [load, loadAt, loadShape, hm] at h
        simp only [hv] at h
        split at h
        · obtain ⟨bytes, rfl⟩ := loadScalar_eq_decode h
          exact decode_part _ bytes a
        · cases h

/-- One access on a view that can be loaded selects a part of the view if and only if it selects a
part of the value, and the one shows the other. -/
theorem shows_part (hs : v.type.ScalarComponents) (h : m.load v = .ok x) (a : Access) :
    Shows m (m.partAt v a) (x.part a) := by
  obtain ⟨buffer, offset, name, attributes, size, align, shape⟩ := v
  cases shape with
  | scalar kind =>
    rw [load, loadAt, loadShape] at h
    obtain ⟨bytes, rfl⟩ := loadScalar_eq_decode h
    exact shows_nothing (fun _ => rfl) rfl rfl (decode_part kind bytes a)
  | handle =>
    rw [load, loadAt, loadShape] at h
    cases h
  | array element count stride => exact shows_array rfl hs h a
  | struct key members first last => exact shows_struct rfl hs h a
  | template base param access space => exact shows_template rfl hs h a

/-! ## Paths -/

theorem resolve_cons (a : Access) (rest : List Access) :
    m.resolve v (a :: rest) = m.partAt v a >>= fun part =>
      match part with
      | .view next => m.resolve next rest
      | .swizzle vector indices => pure (.swizzle vector indices rest) := by
  cases a with
  | index i =>
    rw [resolve, partAt]
    cases m.element v i <;> rfl
  | member name =>
    cases hm : v.member name with
    | error e => simp [resolve, partAt, hm, bind, Except.bind]
    | ok part => cases part <;> simp [resolve, partAt, hm, bind, Except.bind]

/-- One of the components that a swizzle selects. -/
def selected (items : List Value) (i : Nat) : Run Value :=
  match items[i]? with
  | some c => pure c
  | none => throw (.mismatch "swizzle out of range")

/-- Reads the rest of a path behind its first part. -/
def readPart (m : Memory) (rest : List Access) : Part → Run Value
  | .view next => m.readPath next rest
  | .swizzle vector indices => do
    let items := (← m.load vector).components
    let picked ← indices.mapM (selected items)
    (Value.vector picked).atPath rest

theorem readPath_cons (a : Access) (rest : List Access) :
    m.readPath v (a :: rest) = m.partAt v a >>= m.readPart rest := by
  rw [readPath, resolve_cons]
  cases m.partAt v a with
  | error e => rfl
  | ok part => cases part <;> rfl

theorem readPart_swizzle {w : BufferView} {indices : List Nat} {items picked : List Value}
    (h : m.load w = .ok (.vector items))
    (hp : (indices.map fun i => items[i]?) = picked.map some) (rest : List Access) :
    m.readPart rest (.swizzle w indices) = (Value.vector picked).atPath rest := by
  have hselected : ∀ i c, items[i]? = some c → selected items i = .ok c := fun i c hc => by
    rw [selected, hc]
    rfl
  rw [readPart, h]
  show (indices.mapM (selected items) >>= fun picked => (Value.vector picked).atPath rest) = _
  rw [Run.mapM_ok hp hselected]
  rfl

/-- A part of a buffer that can be loaded as a whole is read along a path if and only if the value
of the whole has that part, and what is read is that part. -/
theorem readPath_iff {path : List Access} (hs : v.type.ScalarComponents) (h : m.load v = .ok x)
    (w : Value) : m.readPath v path = .ok w ↔ x.atPath path = .ok w := by
  induction path generalizing v x with
  | nil =>
    have hread : m.readPath v [] = m.load v := rfl
    rw [hread, h, Value.atPath_nil]
  | cons a rest ih =>
    rw [readPath_cons, Value.atPath_cons]
    have shown := shows_part hs h a
    revert shown
    generalize m.partAt v a = part, x.part a = found
    intro shown
    cases shown with
    | view hs h => exact ih hs h
    | swizzle hx hp => exact (readPart_swizzle hx hp rest).congr_left
    | missing e e' => exact ⟨nofun, nofun⟩

/-- A matrix and a runtime-sized array of vectors behind it. -/
def grid : TypeInfo :=
  .mk "Grid" [] 24 8 (.struct (.declared "Grid")
    [.mk "turn" (.mk "mat2x2<f16>" [] 8 4
        (.template "mat2x2" (some (.scalar .f16)) none none)) 0 8 4,
      .mk "cells" (.mk "array<vec2<u32>>" [] 0 8 (.array (.mk "vec2<u32>" [] 8 8
        (.template "vec2" (some (.scalar .u32)) none none)) none 8)) 8 0 8] 1 4)

/-- A buffer with room for two cells. -/
def cells : Memory :=
  { buffers := #[#[0, 0, 0, 0, 0, 0, 0, 0, 1, 0, 0, 0, 2, 0, 0, 0, 3, 0, 0, 0, 4, 0, 0, 0]] }

/-- One letter of a swizzle of the second cell. -/
theorem readPath_iff_cell :
    let path : List Access := [.member "cells", .index 1, .member "yx", .index 0]
    grid.ScalarComponents ∧ ∃ x, cells.load ⟨0, 0, grid⟩ = .ok x ∧ x.atPath path = .ok (.u32 4) ∧
      cells.readPath ⟨0, 0, grid⟩ path = .ok (.u32 4) := by
  intro path
  have hs : grid.ScalarComponents := by
    refine ⟨fun e he => ?_, fun e he => ?_, trivial⟩ <;> cases he
    · exact ⟨fun _ => ⟨.f16, rfl⟩, fun _ => .inr rfl⟩
    · exact ⟨fun _ => ⟨.u32, rfl⟩, fun h => by cases h⟩
  have hload : cells.load ⟨0, 0, grid⟩ = .ok (.struct "Grid"
      [("turn", .matrix [[.zero, .zero], [.zero, .zero]]),
        ("cells", .array [.vector [.u32 1, .u32 2], .vector [.u32 3, .u32 4]])]) := rfl
  exact ⟨hs, _, hload, rfl, (readPath_iff hs hload _).2 rfl⟩

end Memory
end Wgsl
