import Mathlib.Tactic
import Wgsl.Proofs.Memory.Renaming

/-! # Memory with other numbers

Two memories that hold the same buffers and textures under different numbers, each with others
besides. Loading and storing by one number in the one and by its counterpart in the other does the
same, and what has no counterpart stays as it is.

* `Carried`: two arrays that agree along a partial map of their indices.
* `Memory.Carried`: two memories whose buffers and textures do.
* `Memory.readPath_moved`, `Memory.parallel_writePath`: reading and writing below a view.
-/

namespace Wgsl
set_option autoImplicit false

/-! ## Arrays along a partial map -/

/-- The arrays agree along the map; elsewhere each is as at the start. -/
structure Carried {α : Type} (f : Nat → Option Nat) (start start' a a' : Array α) : Prop where
  same : ∀ i j, f i = some j → a'[j]? = a[i]?
  kept : ∀ i, f i = none → a[i]? = start[i]?
  kept' : ∀ j, (∀ i, f i ≠ some j) → a'[j]? = start'[j]?

theorem Carried.change {α : Type} {f : Nat → Option Nat} {start start' a a' b b' : Array α}
    (hf : ∀ {i k j}, f i = some j → f k = some j → i = k) (h : Carried f start start' a a')
    {i j : Nat} (hij : f i = some j) (hsame : b'[j]? = b[i]?)
    (hb : ∀ k, k ≠ i → b[k]? = a[k]?) (hb' : ∀ k, k ≠ j → b'[k]? = a'[k]?) :
    Carried f start start' b b' where
  same k l hkl := by
    by_cases hk : k = i
    · subst hk
      rw [hij] at hkl
      cases hkl
      exact hsame
    · have hl : l ≠ j := by
        rintro rfl
        exact hk (hf hkl hij)
      rw [hb' l hl, hb k hk, h.same k l hkl]
  kept k hk := by
    have hne : k ≠ i := by
      rintro rfl
      rw [hij] at hk
      cases hk
    rw [hb k hne, h.kept k hk]
  kept' l hl := by
    have hne : l ≠ j := by
      rintro rfl
      exact hl i hij
    rw [hb' l hne, h.kept' l hl]

/-! ## Changes side by side -/

/-- Two changes that end alike and lead from related states to related states. -/
def Change.Parallel {σ α : Type} (R : σ → σ → Prop) (c c' : Change σ α) : Prop :=
  ∀ s s', R s s' → (c'.apply s').1 = (c.apply s).1 ∧ R (c.apply s).2 (c'.apply s').2

namespace Change

variable {σ α β : Type} {R : σ → σ → Prop}

theorem parallel_pure (a : α) : Parallel R (pure a) (pure a) := fun _ _ h => ⟨rfl, h⟩

theorem parallel_throw (e : RunError) : Parallel R (throw e : Change σ α) (throw e) :=
  fun _ _ h => ⟨rfl, h⟩

theorem Parallel.bind {c c' : Change σ α} {d d' : α → Change σ β} (hc : Parallel R c c')
    (hd : ∀ a, Parallel R (d a) (d' a)) : Parallel R (c >>= d) (c' >>= d') := by
  intro s s' hs
  have h := hc s s' hs
  simp only [Change.apply, ExceptT.run_bind, StateT.run_bind] at h ⊢
  rcases hr : (ExceptT.run c).run s with ⟨outcome, t⟩
  rcases hr' : (ExceptT.run c').run s' with ⟨outcome', t'⟩
  rw [hr, hr'] at h
  obtain ⟨he, ht⟩ := h
  have e : outcome' = outcome := he
  subst e
  cases outcome' with
  | error e => exact ⟨rfl, ht⟩
  | ok a => exact hd a t t' ht

/-- Changes that read the state first are changes for every two states that they may find. -/
theorem Parallel.reading {f f' : σ → Change σ α} (h : ∀ s s', R s s' → Parallel R (f s) (f' s')) :
    Parallel R (get >>= f) (get >>= f') := fun s s' hs => h s s' hs s s' hs

theorem parallel_lift_bind {x x' : Run α} {g : α → α} {d d' : α → Change σ β} (hx : x' = g <$> x)
    (h : ∀ a, x = .ok a → Parallel R (d a) (d' (g a))) :
    Parallel R (liftM x >>= d) (liftM x' >>= d') := by
  subst hx
  cases x with
  | error e => exact fun _ _ hs => ⟨rfl, hs⟩
  | ok a => exact h a rfl

theorem parallel_lift_bind_same {x : Run α} {d d' : α → Change σ β}
    (h : ∀ a, Parallel R (d a) (d' a)) : Parallel R (liftM x >>= d) (liftM x >>= d') := by
  cases x with
  | error e => exact fun _ _ hs => ⟨rfl, hs⟩
  | ok a => exact h a

theorem parallel_modify {f f' : σ → σ} (h : ∀ s s', R s s' → R (f s) (f' s')) :
    Parallel R (modify f : Change σ PUnit) (modify f') := fun s s' hs => ⟨rfl, h s s' hs⟩

theorem parallel_forM {d d' : α → Change σ PUnit} (h : ∀ a, Parallel R (d a) (d' a)) (l : List α) :
    Parallel R (l.forM d) (l.forM d') := by
  induction l with
  | nil => exact parallel_pure _
  | cons a l ih => exact Parallel.bind (h a) fun _ => ih

end Change

/-! ## Views of another buffer -/

namespace BufferView

/-- The same view of another buffer. -/
def moved (b : BufferId) (v : BufferView) : BufferView := { v with buffer := b }

variable {b : BufferId} (v : BufferView)

theorem shifted_moved (offset : Nat) (type : TypeInfo) :
    (v.moved b).shifted offset type = moved b <$> v.shifted offset type := by
  unfold shifted moved
  dsimp only
  cases checkedSize (v.offset + offset) <;> rfl

theorem element_moved (i : Int) (count : Nat) :
    (v.moved b).element i count = moved b <$> v.element i count := by
  unfold element
  rw [show (v.moved b).type = v.type from rfl]
  cases v.type.elements count with
  | error e => rfl
  | ok e =>
    change (if _ then _ else _ : Run BufferView) = moved b <$> (if _ then _ else _ : Run BufferView)
    split
    · rfl
    · cases checkedSize (i.toNat * e.stride) with
      | none => rfl
      | some offset => exact shifted_moved v offset e.type

theorem buffer_of_shifted {v part : BufferView} {offset : Nat} {type : TypeInfo}
    (h : v.shifted offset type = .ok part) : part.buffer = v.buffer := by
  unfold shifted at h
  cases hc : checkedSize (v.offset + offset) with
  | none =>
    rw [hc] at h
    cases h
  | some n =>
    rw [hc] at h
    cases h
    rfl

theorem buffer_of_element {v part : BufferView} {i : Int} {count : Nat}
    (h : v.element i count = .ok part) : part.buffer = v.buffer := by
  unfold element at h
  cases he : v.type.elements count with
  | error e =>
    rw [he] at h
    cases h
  | ok e =>
    rw [he] at h
    change (if _ then _ else _ : Run BufferView) = _ at h
    split at h
    · cases h
    · cases hc : checkedSize (i.toNat * e.stride) with
      | none =>
        rw [hc] at h
        cases h
      | some offset =>
        rw [hc] at h
        exact buffer_of_shifted h

/-- A part of a view of another buffer. -/
def Part.moved (b : BufferId) : Part → Part
  | .view v => .view (v.moved b)
  | .swizzle vector indices => .swizzle (vector.moved b) indices

/-- The buffer of a part. -/
def Part.buffer : Part → BufferId
  | .view v => v.buffer
  | .swizzle vector _ => vector.buffer

theorem view_map_ok {x : Run BufferView} {part : Part} (h : Part.view <$> x = .ok part) :
    ∃ u, x = .ok u ∧ part = .view u := by
  cases x with
  | error e => cases h
  | ok u =>
    cases h
    exact ⟨u, rfl, rfl⟩

theorem buffer_of_member {v : BufferView} {name : String} {part : Part}
    (h : v.member name = .ok part) : part.buffer = v.buffer := by
  unfold member at h
  split at h
  · obtain ⟨u, hu, rfl⟩ := view_map_ok h
    exact buffer_of_shifted hu
  · split at h
    · unfold swizzled at h
      split at h
      · cases h
      · split at h
        · cases h
        · split at h
          · obtain ⟨u, hu, rfl⟩ := view_map_ok h
            exact buffer_of_element hu
          · cases h
            rfl
    · cases h

theorem member_moved (name : String) :
    (v.moved b).member name = Part.moved b <$> v.member name := by
  unfold member
  rw [show (v.moved b).type = v.type from rfl]
  cases v.type.member? name with
  | some m =>
    dsimp only
    rw [shifted_moved]
    cases v.shifted m.offset m.type <;> rfl
  | none =>
    dsimp only
    cases v.type.vectorLength? with
    | none => rfl
    | some length =>
      dsimp only
      unfold swizzled
      cases swizzleIndices? name with
      | none => rfl
      | some indices =>
        dsimp only
        split
        · rfl
        · split
          · rw [element_moved]
            cases v.element _ 0 <;> rfl
          · rfl

end BufferView

namespace Memory

/-! ## Loading -/

section

variable {m m' : Memory} {b b' : BufferId}

theorem bind_moved {α : Type} {x : Run BufferView} {f g : BufferView → Run α}
    (hf : ∀ v, g (v.moved b) = f v) : (BufferView.moved b <$> x >>= g) = x >>= f := by
  cases x with
  | error e => rfl
  | ok v => exact hf v

theorem runtimeCount_moved (h : m'.buffers[b']? = m.buffers[b]?) {v : BufferView}
    (hv : v.buffer = b) :
    m'.runtimeCount (v.moved b') = m.runtimeCount v := by
  unfold runtimeCount
  rw [show (v.moved b').buffer = b' from rfl, h, hv]
  rfl

theorem checkRange_moved (h : m'.buffers[b']? = m.buffers[b]?) (start count : Nat) :
    m'.checkRange b' start count = m.checkRange b start count := by
  unfold checkRange
  rw [h]

theorem loadScalar_moved (h : m'.buffers[b']? = m.buffers[b]?) (kind : ScalarKind) (start : Nat) :
    m'.loadScalar kind b' start = m.loadScalar kind b start := by
  unfold loadScalar
  rw [checkRange_moved h, h]

mutual

theorem loadAt_moved (h : m'.buffers[b']? = m.buffers[b]?) : ∀ (t : TypeInfo) (offset : Nat),
    m'.loadAt b' t offset = m.loadAt b t offset
  | .mk name attributes size align shape, offset => by
    rw [loadAt, loadAt]
    exact loadShape_moved h shape ⟨b, offset, .mk name attributes size align shape⟩ rfl

theorem loadShape_moved (h : m'.buffers[b']? = m.buffers[b]?) :
    ∀ (shape : TypeShape) (v : BufferView), v.buffer = b →
    m'.loadShape (v.moved b') shape = m.loadShape v shape
  | .scalar kind, v, hv => by
    rw [loadShape, loadShape, hv]
    exact loadScalar_moved h kind v.offset
  | .handle, v, hv => by
    rw [loadShape, loadShape]
    rfl
  | .array element count stride, v, hv => by
    rw [loadShape, loadShape, runtimeCount_moved h hv]
    congr 2
    funext i
    rw [BufferView.element_moved]
    refine bind_moved fun part => ?_
    rw [hv]
    exact loadAt_moved h element part.offset
  | .struct key members first last, v, hv => by
    rw [loadShape, loadShape, loadMembers_moved h members v hv]
    rfl
  | .template base param access space, v, hv => by
    rw [loadShape, loadShape]
    split
    · congr 2
      funext i
      rw [BufferView.element_moved]
      cases he : v.element i 0 with
      | error e => rfl
      | ok part =>
        have hpart : part.buffer = b := (BufferView.buffer_of_element he).trans hv
        exact congrArg (fun items => items >>= fun items => items.mapM Value.number)
          (loadComponents_moved h param _ part hpart)
    · split
      · rw [loadComponents_moved h param _ v hv]
      · split
        · rw [hv]
          exact loadScalar_moved h _ v.offset
        · rfl

theorem loadComponents_moved (h : m'.buffers[b']? = m.buffers[b]?) :
    ∀ (param : Option TypeInfo) (length : Nat) (v : BufferView),
    v.buffer = b → m'.loadComponents length (v.moved b') param = m.loadComponents length v param
  | none, length, v, hv => by
    rw [loadComponents, loadComponents]
    congr 1
    funext i
    rw [BufferView.element_moved]
    exact bind_moved fun part => rfl
  | some element, length, v, hv => by
    rw [loadComponents, loadComponents]
    congr 1
    funext i
    rw [BufferView.element_moved]
    refine bind_moved fun part => ?_
    rw [hv]
    exact loadAt_moved h element part.offset

theorem loadMembers_moved (h : m'.buffers[b']? = m.buffers[b]?) :
    ∀ (members : List MemberInfo) (v : BufferView), v.buffer = b →
    m'.loadMembers (v.moved b') members = m.loadMembers v members
  | [], v, hv => by rw [loadMembers, loadMembers]
  | .mk name type offset size align :: rest, v, hv => by
    rw [loadMembers, loadMembers, loadMembers_moved h rest v hv, BufferView.shifted_moved]
    refine bind_moved fun part => ?_
    rw [hv]
    rw [show (v.moved b').buffer = b' from rfl, show (part.moved b').offset = part.offset from rfl,
      loadAt_moved h type part.offset]

end

theorem load_moved (h : m'.buffers[b']? = m.buffers[b]?) {v : BufferView} (hv : v.buffer = b) :
    m'.load (v.moved b') = m.load v := by
  unfold load
  rw [hv]
  exact loadAt_moved h v.type v.offset

/-- Where a path through another buffer ends. -/
def Target.moved (b : BufferId) : Target → Target
  | .view v => .view (v.moved b)
  | .swizzle vector indices rest => .swizzle (vector.moved b) indices rest

/-- The buffer in which a path ends. -/
def Target.buffer : Target → BufferId
  | .view v => v.buffer
  | .swizzle vector _ _ => vector.buffer

/-- A path ends at the same point of the other buffer, or fails alike. -/
theorem resolve_moved (h : m'.buffers[b']? = m.buffers[b]?) (path : List Access) :
    ∀ v : BufferView, v.buffer = b →
      (∃ e, m.resolve v path = .error e ∧ m'.resolve (v.moved b') path = .error e) ∨
        ∃ t, m.resolve v path = .ok t ∧ t.buffer = b ∧ m'.resolve (v.moved b') path = .ok (t.moved b') := by
  induction path with
  | nil => exact fun v hv => Or.inr ⟨.view v, rfl, hv, rfl⟩
  | cons a rest ih =>
    intro v hv
    cases a with
    | index i =>
      rw [resolve, resolve]
      unfold element
      rw [runtimeCount_moved h hv, BufferView.element_moved]
      cases he : v.element i (m.runtimeCount v) with
      | error e => exact Or.inl ⟨e, rfl, rfl⟩
      | ok part => exact ih part ((BufferView.buffer_of_element he).trans hv)
    | member name =>
      rw [resolve, resolve, BufferView.member_moved]
      cases hm : v.member name with
      | error e => exact Or.inl ⟨e, rfl, rfl⟩
      | ok part =>
        have hpart := (BufferView.buffer_of_member hm).trans hv
        cases part with
        | view next => exact ih next hpart
        | swizzle vector indices => exact Or.inr ⟨.swizzle vector indices rest, rfl, hpart, rfl⟩

theorem readPath_moved (h : m'.buffers[b']? = m.buffers[b]?) {v : BufferView} (hv : v.buffer = b)
    (path : List Access) : m'.readPath (v.moved b') path = m.readPath v path := by
  unfold readPath
  obtain ⟨e, he, he'⟩ | ⟨t, ht, htb, ht'⟩ := resolve_moved h path v hv
  · rw [he, he']
    rfl
  · rw [ht, ht']
    cases t with
    | view u => exact load_moved h htb
    | swizzle vector indices rest =>
      change (m'.load (vector.moved b') >>= _) = (m.load vector >>= _)
      rw [load_moved h htb]

theorem countAt_moved (h : m'.buffers[b']? = m.buffers[b]?) {v : BufferView} (hv : v.buffer = b)
    (path : List Access) : m'.countAt (v.moved b') path = m.countAt v path := by
  unfold countAt
  obtain ⟨e, he, he'⟩ | ⟨t, ht, htb, ht'⟩ := resolve_moved h path v hv
  · rw [he, he']
    rfl
  · rw [ht, ht']
    cases t with
    | view u =>
      dsimp only [bind, Except.bind, Target.moved]
      rw [runtimeCount_moved h htb, show (u.moved b').type = u.type from rfl]
    | swizzle vector indices rest => rfl

end

/-! ## Storing -/

/-- Two memories whose buffers agree along one map and whose textures, all of them bound, agree along
another. -/
structure Carried (f g : Nat → Option Nat) (start start' m m' : Memory) : Prop where
  buffers : Wgsl.Carried f start.buffers start'.buffers m.buffers m'.buffers
  textures : Wgsl.Carried g start.textures start'.textures m.textures m'.textures
  bound : ∀ i j, g i = some j → i < m.textures.size

section

open Change

variable {f g : Nat → Option Nat} {start start' : Memory} {b b' : BufferId}

theorem Carried.write (hf : ∀ {i k j}, f i = some j → f k = some j → i = k) {m m' : Memory}
    (h : Carried f g start start' m m') (hb : f b = some b') (offset : Nat) (bytes : List UInt8) :
    Carried f g start start' (m.write b offset bytes) (m'.write b' offset bytes) where
  buffers := by
    refine h.buffers.change hf hb ?_ (fun k hk => ?_) fun k hk => ?_
    · unfold Memory.write
      rw [Array.getElem?_modify, Array.getElem?_modify, if_pos rfl, if_pos rfl,
        h.buffers.same b b' hb]
    · exact (Array.getElem?_modify).trans (if_neg fun e => hk e.symm)
    · exact (Array.getElem?_modify).trans (if_neg fun e => hk e.symm)
  textures := h.textures
  bound := h.bound

theorem parallel_storeScalar (hf : ∀ {i k j}, f i = some j → f k = some j → i = k)
    (hb : f b = some b') (kind : ScalarKind) (offset : Nat) (v : Value) :
    Parallel (Carried f g start start') (storeScalar kind b offset v)
      (storeScalar kind b' offset v) := by
  unfold storeScalar
  refine Parallel.reading fun m m' hm => ?_
  rw [checkRange_moved (hm.buffers.same b b' hb)]
  refine parallel_lift_bind_same fun _ => parallel_lift_bind_same fun bytes => ?_
  exact parallel_modify fun m m' hm => hm.write hf hb offset bytes

mutual

theorem parallel_storeAt (hf : ∀ {i k j}, f i = some j → f k = some j → i = k) (hb : f b = some b') :
    ∀ (t : TypeInfo) (offset : Nat) (v : Value),
      Parallel (Carried f g start start') (storeAt b t offset v) (storeAt b' t offset v)
  | .mk name attributes size align shape, offset, v => by
    rw [storeAt, storeAt]
    exact parallel_storeShape hf hb shape ⟨b, offset, .mk name attributes size align shape⟩ v rfl

theorem parallel_storeShape (hf : ∀ {i k j}, f i = some j → f k = some j → i = k)
    (hb : f b = some b') : ∀ (shape : TypeShape) (view : BufferView) (v : Value), view.buffer = b →
      Parallel (Carried f g start start') (storeShape view shape v)
        (storeShape (view.moved b') shape v)
  | .scalar kind, view, v, hv => by
    rw [storeShape, storeShape, hv]
    exact parallel_storeScalar hf hb kind view.offset v
  | .handle, view, v, hv => by
    rw [storeShape, storeShape]
    exact parallel_throw _
  | .array element count stride, view, v, hv => by
    by_cases h : ∃ items, v = .array items
    · obtain ⟨items, rfl⟩ := h
      rw [storeShape, storeShape]
      refine Parallel.reading fun m m' hm => ?_
      rw [runtimeCount_moved (hm.buffers.same b b' hb) hv]
      refine parallel_forM (fun a => ?_) _
      obtain ⟨item, i⟩ := a
      refine parallel_lift_bind (BufferView.element_moved view i _) fun part _ => ?_
      rw [hv]
      exact parallel_storeAt hf hb element part.offset item
    · rw [not_exists] at h
      rw [storeShape_array_other view h, storeShape_array_other _ h]
      exact parallel_throw _
  | .struct key members first last, view, v, hv => by
    by_cases h : ∃ name fields, v = .struct name fields
    · obtain ⟨name, fields, rfl⟩ := h
      rw [storeShape, storeShape]
      exact parallel_storeMembers hf hb members view fields hv
    · simp only [not_exists] at h
      rw [storeShape_struct_other view h, storeShape_struct_other _ h]
      exact parallel_throw _
  | .template base param access space, view, v, hv => by
    rw [storeShape, storeShape]
    split
    · refine parallel_lift_bind_same fun parts => parallel_forM (fun a => ?_) _
      obtain ⟨item, i⟩ := a
      refine parallel_lift_bind (BufferView.element_moved view i _) fun part hpart => ?_
      exact parallel_storeComponents hf hb param _ part item
        ((BufferView.buffer_of_element hpart).trans hv)
    · split
      · exact parallel_storeComponents hf hb param _ view v hv
      · split
        · rw [hv]
          exact parallel_storeScalar hf hb _ view.offset v
        · exact parallel_throw _

theorem parallel_storeComponents (hf : ∀ {i k j}, f i = some j → f k = some j → i = k)
    (hb : f b = some b') :
    ∀ (param : Option TypeInfo) (length : Nat) (view : BufferView) (v : Value), view.buffer = b →
      Parallel (Carried f g start start') (storeComponents length view param v)
        (storeComponents length (view.moved b') param v)
  | none, length, view, v, hv => by
    rw [storeComponents, storeComponents]
    refine parallel_lift_bind_same fun parts => parallel_forM (fun a => ?_) _
    obtain ⟨item, i⟩ := a
    exact parallel_lift_bind (BufferView.element_moved view i _) fun part _ => parallel_throw _
  | some element, length, view, v, hv => by
    rw [storeComponents, storeComponents]
    refine parallel_lift_bind_same fun parts => parallel_forM (fun a => ?_) _
    obtain ⟨item, i⟩ := a
    refine parallel_lift_bind (BufferView.element_moved view i _) fun part _ => ?_
    rw [hv]
    exact parallel_storeAt hf hb element part.offset item

theorem parallel_storeMembers (hf : ∀ {i k j}, f i = some j → f k = some j → i = k)
    (hb : f b = some b') :
    ∀ (members : List MemberInfo) (view : BufferView) (fields : List (String × Value)),
      view.buffer = b → Parallel (Carried f g start start') (storeMembers view fields members)
        (storeMembers (view.moved b') fields members)
  | [], view, fields, hv => by
    rw [storeMembers, storeMembers]
    exact parallel_pure _
  | .mk name type offset size align :: rest, view, fields, hv => by
    rw [storeMembers, storeMembers]
    have others := parallel_storeMembers hf hb rest view fields hv
    cases Table.find? fields name with
    | none => exact others
    | some value =>
      refine parallel_lift_bind (BufferView.shifted_moved view offset type) fun part _ => ?_
      rw [hv]
      exact Parallel.bind (parallel_storeAt hf hb type part.offset value) fun _ => others

end

theorem parallel_store (hf : ∀ {i k j}, f i = some j → f k = some j → i = k) (hb : f b = some b')
    {view : BufferView} (hv : view.buffer = b) (v : Value) :
    Parallel (Carried f g start start') (store view v) (store (view.moved b') v) := by
  unfold store
  rw [hv]
  exact parallel_storeAt hf hb view.type view.offset v

theorem parallel_writePath (hf : ∀ {i k j}, f i = some j → f k = some j → i = k)
    (hb : f b = some b') {view : BufferView} (hv : view.buffer = b) (path : List Access) (v : Value) :
    Parallel (Carried f g start start') (writePath view path v)
      (writePath (view.moved b') path v) := by
  unfold writePath
  refine Parallel.reading fun m m' hm => ?_
  have same := hm.buffers.same b b' hb
  obtain ⟨e, he, he'⟩ | ⟨t, ht, htb, ht'⟩ := resolve_moved same path view hv
  · rw [he, he']
    exact parallel_throw e
  · rw [ht, ht']
    cases t with
    | view u => exact parallel_store hf hb htb v
    | swizzle vector indices rest =>
      cases rest with
      | cons a more => exact parallel_throw _
      | nil =>
        change Parallel _ (liftM (m.load vector) >>= _) (liftM (m'.load (vector.moved b')) >>= _)
        rw [load_moved same htb]
        refine parallel_lift_bind_same fun old => ?_
        rcases (Value.assignPath [.member (swizzleOf indices)] v).apply old with ⟨outcome, changed⟩
        cases outcome with
        | error e => exact parallel_throw e
        | ok u => exact parallel_store hf hb htb changed

theorem Carried.texture {m m' : Memory} (h : Carried f g start start' m m') {i j : TextureId}
    (hij : g i = some j) : m'.texture j = m.texture i := by
  have same := h.textures.same i j hij
  rw [Array.getElem?_eq_getElem (h.bound i j hij)] at same
  unfold Memory.texture
  rw [same, Array.getElem?_eq_getElem (h.bound i j hij)]

theorem onTexture_apply {m : Memory} {i : TextureId} {t : Texture} (ht : m.texture i = .ok t)
    (c : Change Texture Unit) : (onTexture i c).apply m =
      ((c.apply t).1, { m with textures := m.textures.setIfInBounds i (c.apply t).2 }) := by
  change ((liftM (m.texture i) >>= _ : Change Memory Unit).apply m) = _
  rw [ht]
  rfl

/-- A change of a texture. -/
theorem parallel_onTexture (hg : ∀ {i k j}, g i = some j → g k = some j → i = k) {i j : TextureId}
    (hij : g i = some j) (c : Change Texture Unit) :
    Parallel (Carried f g start start') (onTexture i c) (onTexture j c) := by
  intro m m' hm
  have hi := hm.bound i j hij
  have same := hm.textures.same i j hij
  rw [Array.getElem?_eq_getElem hi] at same
  obtain ⟨hj, -⟩ := Array.getElem?_eq_some_iff.1 same
  have ht : m.texture i = .ok m.textures[i] := by
    unfold texture
    rw [Array.getElem?_eq_getElem hi]
    rfl
  rw [onTexture_apply ht, onTexture_apply ((hm.texture hij).trans ht)]
  refine ⟨rfl, hm.buffers, ?_, fun k l hkl => ?_⟩
  · refine hm.textures.change hg hij ?_ (fun k hk => ?_) fun k hk => ?_
    · rw [Array.getElem?_setIfInBounds_self_of_lt hj, Array.getElem?_setIfInBounds_self_of_lt hi]
    · exact Array.getElem?_setIfInBounds_ne fun e => hk e.symm
    · exact Array.getElem?_setIfInBounds_ne fun e => hk e.symm
  · rw [Array.size_setIfInBounds]
    exact hm.bound k l hkl

end

end Memory

end Wgsl
