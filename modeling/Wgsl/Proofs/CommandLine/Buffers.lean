import Wgsl.CommandLine
import Wgsl.Proofs.Machine.Binding
import Wgsl.Proofs.Memory.RoundTrip

/-! # Buffers from the command line

The numbers of an argument are written a word for each, and a view reads an array element by element.
The two agree where an element takes a word, that is for every kind of number but half-precision
floats.

* `TypeInfo.IsArrayOf`: the runtime-sized arrays of plain scalars.
* `Memory.load_isArrayOf`: what a view of such an array loads, whatever the bytes are.
* `CommandLine.bindBuffers_ok`: the buffers that are in the slots afterwards.
* `CommandLine.bindBuffers_loads`: a buffer of words is loaded as the numbers of its argument.
* `CommandLine.halves_misread`: a buffer of half-precision floats is not.
-/

namespace Wgsl
set_option autoImplicit false

/-! ## Runtime-sized arrays of scalars -/

/-- A runtime-sized array of scalars that lie directly one behind the other. -/
def TypeInfo.IsArrayOf (t : TypeInfo) (kind : ScalarKind) : Prop :=
  ∃ element, t.shape = .array element none kind.size ∧ element.shape = .scalar kind

/-- The kind of such an array. -/
def TypeInfo.arrayKind? (t : TypeInfo) : Option ScalarKind :=
  match t.shape with
  | .array element none stride =>
    match element.shape with
    | .scalar kind => if stride = kind.size then some kind else none
    | _ => none
  | _ => none

theorem TypeInfo.isArrayOf_of_arrayKind? {t : TypeInfo} {kind : ScalarKind}
    (h : t.arrayKind? = some kind) : t.IsArrayOf kind := by
  unfold arrayKind? at h
  split at h
  · rename_i element stride hshape
    split at h
    · rename_i found helement
      split at h
      · rename_i hstride
        cases h
        exact ⟨element, hstride ▸ hshape, helement⟩
      · cases h
    · cases h
  · cases h

/-- The number of an element in the bytes of an array. -/
def ScalarKind.decodeAt (kind : ScalarKind) (data : Array UInt8) (i : Nat) : Value :=
  kind.decode ((Bytes.read? data (i * kind.size) kind.size).getD [])

namespace Memory

theorem loadScalar_ok {m : Memory} {kind : ScalarKind} {buffer start : Nat} {data : Array UInt8}
    (hdata : m.buffers[buffer]? = some data) (h : start + kind.size ≤ data.size) :
    m.loadScalar kind buffer start =
      .ok (kind.decode ((Bytes.read? data start kind.size).getD [])) := by
  have inside : m.checkRange buffer start kind.size = .ok () := by
    rw [checkRange, hdata]
    exact if_pos h
  rw [loadScalar, inside, hdata]
  rfl

/-- A runtime-sized array has as many elements as its buffer has room for. -/
theorem load_isArrayOf {m : Memory} {t : TypeInfo} {kind : ScalarKind} {buffer : Nat}
    {data : Array UInt8} (ht : t.IsArrayOf kind) (hdata : m.buffers[buffer]? = some data)
    (hsize : data.size < sizeLimit) :
    m.load ⟨buffer, 0, t⟩ =
      .ok (.array ((List.range (data.size / kind.size)).map (kind.decodeAt data))) := by
  obtain ⟨element, hshape, helement⟩ := ht
  obtain ⟨name, attributes, size, align, shape⟩ := t
  cases hshape
  have hcount : m.runtimeCount ⟨buffer, 0, .mk name attributes size align (.array element none kind.size)⟩ =
      data.size / kind.size := by
    simp only [runtimeCount, TypeInfo.shape, hdata, Option.map_some, Option.getD_some, Nat.sub_zero,
      Nat.mod_eq_of_lt hsize]
  have room : data.size / kind.size * kind.size ≤ data.size := Nat.div_mul_le_self ..
  have elements : Run.values (data.size / kind.size) (fun (i : Nat) => do
      m.loadAt buffer element (← BufferView.element ⟨buffer, 0,
        .mk name attributes size align (.array element none kind.size)⟩ i (data.size / kind.size)).offset) =
      .ok ((List.range (data.size / kind.size)).map (kind.decodeAt data)) := by
    have hlength : ((List.range (data.size / kind.size)).map (kind.decodeAt data)).length =
        data.size / kind.size := by rw [List.length_map, List.length_range]
    conv_lhs => rw [← hlength]
    refine Run.values_eq_ok fun i x hx => ?_
    have hi : i < data.size / kind.size := by
      have := (List.getElem?_eq_some_iff.1 hx).1
      rwa [hlength] at this
    rw [List.getElem?_map, List.getElem?_range hi] at hx
    cases hx
    have hnext : (i + 1) * kind.size ≤ data.size / kind.size * kind.size := Nat.mul_le_mul_right _ hi
    rw [Nat.succ_mul] at hnext
    rw [hlength, BufferView.element_ok (e := ⟨element, kind.size, data.size / kind.size⟩) rfl hi
      (by dsimp only; omega)]
    simp only [bind, Except.bind, Nat.zero_add]
    rw [loadAt_scalar m buffer _ helement, loadScalar_ok hdata (by omega)]
    rfl
  rw [load, loadAt, loadShape]
  dsimp only
  rw [hcount, elements]
  rfl

end Memory

namespace CommandLine

/-! ## Words -/

/-- The bytes of an argument are four for each number. -/
theorem size_encode (kind : ScalarKind) (values : List Float) :
    (encode kind values).size = values.length * 4 := by
  unfold encode
  rw [List.size_toArray]
  induction values with
  | nil => rfl
  | cons x values ih =>
    rw [List.flatMap_cons, List.length_append, ih, List.length_cons, Nat.succ_mul, Nat.add_comm]
    rfl

/-- The word of each number is found at its place. -/
theorem read_encode (kind : ScalarKind) {values : List Float} {i : Nat} {x : Float}
    (hx : values[i]? = some x) :
    Bytes.read? (encode kind values) (i * 4) 4 = some (Bytes.ofUInt32 (word kind x)) := by
  have hi : i < values.length := (List.getElem?_eq_some_iff.1 hx).1
  rw [Bytes.read?, if_pos (by rw [size_encode]; omega)]
  congr 1
  unfold encode
  rw [Array.toList_extract, List.extract_eq_take_drop, Nat.add_sub_cancel_left]
  dsimp only
  clear hi
  induction values generalizing i with
  | nil => cases hx
  | cons y values ih =>
    rw [List.flatMap_cons]
    cases i with
    | zero =>
      cases hx
      rfl
    | succ i =>
      have hlength : (Bytes.ofUInt32 (word kind y)).length = 4 := Bytes.length_ofNat 4 _
      rw [show (i + 1) * 4 = (Bytes.ofUInt32 (word kind y)).length + i * 4 by omega,
        List.drop_append]
      rw [List.drop_eq_nil_of_le (by omega), List.nil_append, Nat.add_sub_cancel_left]
      exact ih hx

/-- The word of a number spells the number, in every kind whose scalars take a word. -/
theorem decode_word {kind : ScalarKind} (hkind : kind = .i32 ∨ kind = .u32 ∨ kind = .f32) (x : Float) :
    kind.decode (Bytes.ofUInt32 (word kind x)) = Value.ofDouble x kind := by
  obtain rfl | rfl | rfl := hkind
  · simp only [ScalarKind.decode, Bytes.toUInt32_ofUInt32]
    rfl
  · simp only [ScalarKind.decode, Bytes.toUInt32_ofUInt32]
    rfl
  · simp only [ScalarKind.decode, Bytes.toUInt32_ofUInt32]
    rfl

theorem decodeAt_encode {kind : ScalarKind} (hkind : kind = .i32 ∨ kind = .u32 ∨ kind = .f32)
    {values : List Float} {i : Nat} {x : Float} (hx : values[i]? = some x) :
    kind.decodeAt (encode kind values) i = Value.ofDouble x kind := by
  have hsize : kind.size = 4 := by obtain rfl | rfl | rfl := hkind <;> rfl
  rw [ScalarKind.decodeAt, hsize, read_encode kind hx]
  exact decode_word hkind x

/-- Words are loaded as the numbers that they were written for. -/
theorem load_encode {m : Memory} {t : TypeInfo} {kind : ScalarKind} {buffer : Nat}
    {values : List Float} (ht : t.IsArrayOf kind) (hkind : kind = .i32 ∨ kind = .u32 ∨ kind = .f32)
    (hdata : m.buffers[buffer]? = some (encode kind values)) (hfit : values.length * 4 < sizeLimit) :
    m.load ⟨buffer, 0, t⟩ = .ok (.array (values.map fun x => Value.ofDouble x kind)) := by
  have hsize : kind.size = 4 := by obtain rfl | rfl | rfl := hkind <;> rfl
  rw [Memory.load_isArrayOf ht hdata (by rw [size_encode]; exact hfit)]
  rw [size_encode, hsize, Nat.mul_div_cancel _ (by decide)]
  congr 2
  refine List.ext_getElem? fun i => ?_
  rw [List.getElem?_map, List.getElem?_map]
  cases hx : values[i]? with
  | none =>
    have hi : values.length ≤ i := List.getElem?_eq_none_iff.1 hx
    rw [List.getElem?_eq_none (by rw [List.length_range]; exact hi)]
    rfl
  | some x =>
    have hi : i < values.length := (List.getElem?_eq_some_iff.1 hx).1
    rw [List.getElem?_range hi]
    exact congrArg some (decodeAt_encode hkind hx)

/-! ## Slots -/

/-- What an argument puts into its slot, written in a kind. -/
def BufferArgument.resource (b : BufferArgument) (kind : ScalarKind) : HostResource :=
  if b.uniform then .uniform (encode kind b.values) else .storage (encode kind b.values)

theorem elementKind_isArrayOf {x : Resource} {kind : ScalarKind} (hx : x.type.IsArrayOf kind) :
    elementKind x = kind := by
  obtain ⟨⟨name, attributes, size, align, shape⟩, hshape, helement⟩ := hx
  cases helement
  unfold elementKind
  rw [hshape]
  rfl

/-- If every argument names a variable, all are bound; each slot has the buffer of the last argument
that names it, in the kind of number of its variable. -/
theorem bindBuffers_ok {r : Reflection} {buffers : List BufferArgument}
    (hknown : ∀ b ∈ buffers, (r.findResource? b.slot.group b.slot.binding).isSome) :
    ∃ g, bindBuffers r buffers = .ok g ∧
      ∀ before b after, buffers = before ++ b :: after → (∀ c ∈ after, c.slot ≠ b.slot) →
        ∀ x, r.findResource? b.slot.group b.slot.binding = some x →
          g.find? b.slot = some (b.resource (elementKind x)) := by
  induction buffers using List.reverseRecOn with
  | nil => exact ⟨{}, rfl, fun before b after h => by simp at h⟩
  | append_singleton buffers last ih =>
    obtain ⟨g, hg, hslots⟩ := ih fun b hb => hknown b (List.mem_append_left _ hb)
    obtain ⟨v, hv⟩ := Option.isSome_iff_exists.1 (hknown last (by simp))
    have bound : bindBuffers r (buffers ++ [last]) =
        .ok (g.insert last.slot (last.resource (elementKind v))) := by
      unfold bindBuffers at hg ⊢
      rw [List.foldlM_append, hg]
      simp only [List.foldlM_cons, List.foldlM_nil, bind, Except.bind, hv]
      rfl
    refine ⟨_, bound, fun before b after h hafter x hx => ?_⟩
    -- the argument is the last one, or it stands before it and names another slot
    rcases List.eq_nil_or_concat after with rfl | ⟨middle, other, rfl⟩
    · obtain ⟨-, he⟩ := List.append_inj' h rfl
      cases he
      rw [hv] at hx
      cases hx
      exact BindGroups.find?_insert_self
    · have h' : buffers ++ [last] = (before ++ b :: middle) ++ [other] := by
        rw [h]
        simp
      obtain ⟨hinit, he⟩ := List.append_inj' h' rfl
      cases he
      have hne : b.slot ≠ last.slot := fun e => hafter last (by simp) e.symm
      rw [BindGroups.find?_insert_of_ne hne]
      exact hslots before b middle hinit (fun c hc => hafter c (by simp [hc])) x hx

/-- If every argument names a variable, all are bound; and a view of a runtime-sized array over the
bytes in its slot shows the numbers of the argument, one element for each. -/
theorem bindBuffers_loads {r : Reflection} {before after : List BufferArgument} {b : BufferArgument}
    {x : Resource} {kind : ScalarKind}
    (hknown : ∀ c ∈ before ++ b :: after, (r.findResource? c.slot.group c.slot.binding).isSome)
    (hlast : ∀ c ∈ after, c.slot ≠ b.slot)
    (hx : r.findResource? b.slot.group b.slot.binding = some x) (htype : x.type.IsArrayOf kind)
    (hkind : kind = .i32 ∨ kind = .u32 ∨ kind = .f32) (hfit : b.values.length * 4 < sizeLimit) :
    ∃ g bytes, bindBuffers r (before ++ b :: after) = .ok g ∧
      g.find? b.slot = some (if b.uniform then .uniform bytes else .storage bytes) ∧
      ∀ (m : Memory) (id : BufferId), m.buffers[id]? = some bytes →
        m.load ⟨id, 0, x.type⟩ = .ok (.array (b.values.map fun v => Value.ofDouble v kind)) := by
  obtain ⟨g, hg, hslots⟩ := bindBuffers_ok hknown
  refine ⟨g, encode kind b.values, hg, ?_, fun m id hdata => load_encode htype hkind hdata hfit⟩
  rw [hslots before b after rfl hlast x hx, elementKind_isArrayOf htype]
  rfl

/-- A buffer of integers and one of half-precision floats. -/
def mixedSource : String :=
  "@group(0) @binding(0) var<storage> a: array<u32>; @group(0) @binding(1) var<storage> h: array<f16>;"

theorem reflect_mixedSource : ∃ r x y, Reflection.ofSource mixedSource = .ok r ∧
    r.findResource? 0 0 = some x ∧ x.type.IsArrayOf .u32 ∧
      r.findResource? 0 1 = some y ∧ y.type.IsArrayOf .f16 := by
  have kinds : (Reflection.ofSource mixedSource).toOption.map (fun r =>
      ((r.findResource? 0 0).bind fun v => v.type.arrayKind?,
        (r.findResource? 0 1).bind fun v => v.type.arrayKind?)) = some (some .u32, some .f16) := by
    decide +kernel
  cases hr : Reflection.ofSource mixedSource with
  | error fault =>
    rw [hr] at kinds
    cases kinds
  | ok r =>
    rw [hr] at kinds
    obtain ⟨first, second⟩ := Prod.ext_iff.1 (Option.some.inj kinds)
    obtain ⟨x, hx, hkind⟩ := Option.bind_eq_some_iff.1 first
    obtain ⟨y, hy, hkind'⟩ := Option.bind_eq_some_iff.1 second
    exact ⟨r, x, y, rfl, hx, TypeInfo.isArrayOf_of_arrayKind? hkind, hy,
      TypeInfo.isArrayOf_of_arrayKind? hkind'⟩

/-- Two integers, in front of a buffer for another slot. -/
theorem bindBuffers_loads_mixed : ∃ r x g bytes, Reflection.ofSource mixedSource = .ok r ∧
    r.findResource? 0 0 = some x ∧
    bindBuffers r [⟨⟨0, 0⟩, false, [3, 5]⟩, ⟨⟨0, 1⟩, true, [1]⟩] = .ok g ∧
      g.find? ⟨0, 0⟩ = some (.storage bytes) ∧
      (Memory.empty.addBuffer bytes).1.load ⟨0, 0, x.type⟩ =
        .ok (.array [Value.ofDouble 3 .u32, Value.ofDouble 5 .u32]) := by
  obtain ⟨r, x, y, hr, hx, htype, hy, -⟩ := reflect_mixedSource
  have hknown : ∀ c ∈ ([] : List BufferArgument) ++ ⟨⟨0, 0⟩, false, [3, 5]⟩ :: [⟨⟨0, 1⟩, true, [1]⟩],
      (r.findResource? c.slot.group c.slot.binding).isSome := by simp [hx, hy]
  obtain ⟨g, bytes, hg, hslot, hload⟩ :=
    bindBuffers_loads hknown (by simp) hx htype (by simp) (by decide)
  exact ⟨r, x, g, bytes, hr, hx, hg, hslot, hload _ 0 rfl⟩

/-! ## Half-precision floats -/

/-- Half-precision floats are loaded from half the bytes of a word: there are twice as many of them as
numbers in the argument. -/
theorem load_encode_half {m : Memory} {t : TypeInfo} {buffer : Nat} {values : List Float}
    (ht : t.IsArrayOf .f16) (hdata : m.buffers[buffer]? = some (encode .f16 values))
    (hfit : values.length * 4 < sizeLimit) :
    ∃ items, m.load ⟨buffer, 0, t⟩ = .ok (.array items) ∧ items.length = 2 * values.length := by
  refine ⟨_, Memory.load_isArrayOf ht hdata (by rw [size_encode]; exact hfit), ?_⟩
  have two : ScalarKind.f16.size = 2 := rfl
  rw [List.length_map, List.length_range, size_encode, two]
  omega

/-- One half-precision float is given, and the array that is loaded does not consist of it. -/
theorem halves_misread : ∃ r y g bytes, Reflection.ofSource mixedSource = .ok r ∧
    r.findResource? 0 1 = some y ∧ y.type.IsArrayOf .f16 ∧
    bindBuffers r [⟨⟨0, 1⟩, false, [1]⟩] = .ok g ∧ g.find? ⟨0, 1⟩ = some (.storage bytes) ∧
      (Memory.empty.addBuffer bytes).1.load ⟨0, 0, y.type⟩ ≠
        .ok (.array [Value.ofDouble 1 .f16]) := by
  obtain ⟨r, x, y, hr, -, -, hy, htype⟩ := reflect_mixedSource
  have hknown : ∀ b ∈ ([⟨⟨0, 1⟩, false, [1]⟩] : List BufferArgument),
      (r.findResource? b.slot.group b.slot.binding).isSome := by simp [hy]
  obtain ⟨g, hg, hslots⟩ := bindBuffers_ok hknown
  have hslot := hslots [] _ [] rfl nofun y hy
  rw [elementKind_isArrayOf htype] at hslot
  refine ⟨r, y, g, encode .f16 [1], hr, hy, htype, hg, hslot, fun hload => ?_⟩
  have hdata : (Memory.empty.addBuffer (encode .f16 [1])).1.buffers[0]? = some (encode .f16 [1]) := rfl
  obtain ⟨items, hitems, hlength⟩ := load_encode_half htype hdata (by decide)
  rw [hload] at hitems
  cases hitems
  exact absurd hlength (by decide)

end CommandLine

end Wgsl
