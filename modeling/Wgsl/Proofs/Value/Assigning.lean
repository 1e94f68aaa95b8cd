import Mathlib.Data.List.Basic
import Wgsl.Value.Path

/-! # Parts that are assigned to

Reading and assigning go along a path by two functions of their own. They agree on where a path
leads.

* `Value.HasSlot`: the forms of values that an access goes into for assignment.
* `Value.assignPath_induction`: how an assignment goes along its path.
* `Value.assignPath_failed`: what a failed assignment has changed.
* `Value.assignPath_lens`: a path selects what was assigned to it, and a disjoint path what it
  selected before.

Only a swizzle is assigned to in steps, one component after another; `Value.Assigned` is the run of
these steps, and all that an assignment may leave half done is such a run.
-/

namespace Wgsl
set_option autoImplicit false

open Number (Single)

namespace Table

variable {α : Type}

/-- Entering what is there already changes nothing. -/
theorem insert_eq_self {t : Table α} {name : String} {value : α} (h : t.find? name = some value) :
    t.insert name value = t := by
  induction t with
  | nil => cases h
  | cons p rest ih =>
    obtain ⟨n, v⟩ := p
    rw [find?, List.lookup_cons] at h
    by_cases hn : n = name
    · subst hn
      rw [beq_self_eq_true] at h
      cases h
      rw [insert, if_pos rfl]
    · rw [beq_eq_false_iff_ne.mpr (Ne.symm hn)] at h
      rw [insert, if_neg hn, ih h]

end Table

/-- The components of a vector that an access selects. -/
def Access.components : Access → List Nat
  | .index i => if i < 0 then [] else [i.toNat]
  | .member swizzle => (swizzleIndices? swizzle).getD []

namespace Value

variable {v old new kept : Value} {a b : Access} {items items' : List Value} {swizzle : String}
  {path : List Access}

/-! ## One access -/

theorem element_eq_ok {α : Type} {items : List α} {i : Int} {x : α} :
    element items i = .ok x ↔ 0 ≤ i ∧ items[i.toNat]? = some x := by
  unfold element
  by_cases hi : i < 0
  · simp only [hi, if_true]
    constructor
    · nofun
    · rintro ⟨h, -⟩
      omega
  · simp only [hi, if_false]
    cases items[i.toNat]? with
    | none => exact ⟨nofun, nofun⟩
    | some y =>
      constructor
      · rintro ⟨⟩
        exact ⟨by omega, rfl⟩
      · rintro ⟨-, ⟨⟩⟩
        rfl

/-- The forms of values that an access goes into, with the part that it reaches. -/
inductive HasSlot : Value → Access → Value → Prop where
  | field {name m : String} {fields : List (String × Value)} {old : Value}
      (h : Table.find? fields m = some old) : HasSlot (.struct name fields) (.member m) old
  | letter {items : List Value} {swizzle : String} {i : Nat} {old : Value}
      (hs : swizzleIndices? swizzle = some [i]) (hi : items[i]? = some old) :
      HasSlot (.vector items) (.member swizzle) old
  | component {items : List Value} {i : Int} {old : Value} (hi : 0 ≤ i)
      (h : items[i.toNat]? = some old) : HasSlot (.vector items) (.index i) old
  | element {items : List Value} {i : Int} {old : Value} (hi : 0 ≤ i)
      (h : items[i.toNat]? = some old) : HasSlot (.array items) (.index i) old

theorem slot_eq_ok : v.slot a = .ok old ↔ v.HasSlot a old := by
  constructor
  · intro h
    cases v with
    | struct name fields =>
      cases a with
      | index i => cases h
      | member m =>
        simp only [slot] at h
        split at h <;> cases h
        exact .field (by assumption)
    | vector items =>
      cases a with
      | index i =>
        obtain ⟨hi, hx⟩ := element_eq_ok.1 h
        exact .component hi hx
      | member swizzle =>
        simp only [slot] at h
        split at h
        · split at h <;> cases h
          exact .letter (by assumption) (by assumption)
        · cases h
    | array items =>
      cases a with
      | index i =>
        obtain ⟨hi, hx⟩ := element_eq_ok.1 h
        exact .element hi hx
      | member m => cases h
    | _ => cases h
  · intro h
    cases h with
    | field h => simp only [slot, h]; rfl
    | letter hs hi => simp only [slot, hs, hi]; rfl
    | component hi h => exact element_eq_ok.2 ⟨hi, h⟩
    | element hi h => exact element_eq_ok.2 ⟨hi, h⟩

/-- What can be assigned to can be read. -/
theorem HasSlot.part (h : v.HasSlot a old) : v.part a = .ok old := by
  cases h with
  | field h => simp only [Value.part, h]; rfl
  | letter hs hi => simp only [Value.part, pick, hs, List.mapM_cons, List.mapM_nil, hi]; rfl
  | component hi h => exact element_eq_ok.2 ⟨hi, h⟩
  | element hi h => exact element_eq_ok.2 ⟨hi, h⟩

theorem HasSlot.withSlot_self (h : v.HasSlot a old) : v.withSlot a old = v := by
  cases h with
  | field h => rw [withSlot, Table.insert_eq_self h]
  | letter hs hi =>
    obtain ⟨hlt, rfl⟩ := List.getElem?_eq_some_iff.1 hi
    simp only [withSlot, hs, List.set_getElem_self]
  | component _ h =>
    obtain ⟨hlt, rfl⟩ := List.getElem?_eq_some_iff.1 h
    rw [withSlot, List.set_getElem_self]
  | element _ h =>
    obtain ⟨hlt, rfl⟩ := List.getElem?_eq_some_iff.1 h
    rw [withSlot, List.set_getElem_self]

/-- The new part is in the place of the old one. -/
theorem HasSlot.withSlot (h : v.HasSlot a old) (new : Value) :
    (v.withSlot a new).HasSlot a new := by
  cases h with
  | field h => exact .field (Table.find?_insert_self ..)
  | letter hs hi =>
    have hlt := (List.getElem?_eq_some_iff.1 hi).1
    simp only [Value.withSlot, hs]
    exact .letter hs (List.getElem?_set_self hlt)
  | component hi h =>
    have hlt := (List.getElem?_eq_some_iff.1 h).1
    exact .component hi (List.getElem?_set_self hlt)
  | element hi h =>
    have hlt := (List.getElem?_eq_some_iff.1 h).1
    exact .element hi (List.getElem?_set_self hlt)

/-! ## Disjoint accesses -/

/-- Two accesses select disjoint parts: different members, elements or columns, or components none
of which both select. -/
def Splits : Value → Access → Access → Prop
  | .struct _ _, .member m, .member n => m ≠ n
  | .vector _, a, b => ∀ i ∈ a.components, i ∉ b.components
  | .array _, .index i, .index j => i ≠ j
  | .matrix _, .index i, .index j => i ≠ j
  | _, _, _ => False

theorem mapM_congr {α β : Type} {f g : α → Run β} {xs : List α} (h : ∀ x ∈ xs, f x = g x) :
    xs.mapM f = xs.mapM g := by
  induction xs with
  | nil => rfl
  | cons x rest ih =>
    rw [List.mapM_cons, List.mapM_cons, h x List.mem_cons_self,
      ih fun y hy => h y (List.mem_cons_of_mem _ hy)]

/-- A part of a vector depends on the components that the access selects, and on how many there
are. -/
theorem part_vector_congr (hlen : items'.length = items.length)
    (h : ∀ i ∈ b.components, items'[i]? = items[i]?) :
    (Value.vector items').part b = (Value.vector items).part b := by
  cases b with
  | index i =>
    simp only [part, element, hlen]
    by_cases hi : i < 0
    · simp only [hi, if_true]
    · have hmem : i.toNat ∈ (Access.index i).components := by
        simp only [Access.components, hi, if_false, List.mem_singleton]
      simp only [hi, if_false, h _ hmem]
  | member swizzle =>
    simp only [part, pick]
    cases hs : swizzleIndices? swizzle with
    | none => rfl
    | some indices =>
      have hsame : ∀ i ∈ indices, items'[i]? = items[i]? := fun i hi =>
        h i (by simpa only [Access.components, hs, Option.getD_some] using hi)
      refine congrArg (· >>= _) (mapM_congr fun i hi => ?_)
      rw [hsame i hi]

/-- A new part does not show in a disjoint one. -/
theorem HasSlot.part_withSlot (h : v.HasSlot a old) (hab : v.Splits a b) (new : Value) :
    (v.withSlot a new).part b = v.part b := by
  cases h with
  | field h =>
    cases b with
    | index j => exact hab.elim
    | member n =>
      simp only [Value.withSlot, Value.part, Table.find?_insert_of_ne _ new (Ne.symm hab)]
  | letter hs hi =>
    simp only [Value.withSlot, hs]
    refine part_vector_congr List.length_set fun j hj => List.getElem?_set_ne ?_
    rintro rfl
    exact hab _ (by simp only [Access.components, hs]; exact List.mem_singleton_self _) hj
  | @component _ i _ hi h =>
    refine part_vector_congr List.length_set fun j hj => List.getElem?_set_ne ?_
    rintro rfl
    refine hab i.toNat ?_ hj
    have hneg : ¬ i < 0 := by omega
    simp only [Access.components, hneg, if_false, List.mem_singleton]
  | @element items i _ hi h =>
    cases b with
    | member n => exact hab.elim
    | index j =>
      simp only [Value.withSlot, Value.part, Value.element, List.length_set]
      by_cases hj : j < 0
      · simp only [hj, if_true]
      · have hne : i.toNat ≠ j.toNat := fun he => hab (by omega)
        simp only [hj, if_false, List.getElem?_set_ne hne]

/-! ## Paths -/

@[simp] theorem atPath_nil (v : Value) : v.atPath [] = .ok v := rfl

theorem atPath_cons (v : Value) (a : Access) (rest : List Access) :
    v.atPath (a :: rest) = v.part a >>= fun u => u.atPath rest := rfl

/-- What a path selects is disjoint from what another selects: the accesses part at one place. -/
def Apart : Value → List Access → List Access → Prop
  | v, a :: p, b :: q => v.Splits a b ∨ (a = b ∧ ∃ u, v.part a = .ok u ∧ Apart u p q)
  | _, _, _ => False

theorem Apart.cases {p q : List Access} (h : v.Apart (a :: p) q) :
    ∃ b q', q = b :: q' ∧ (v.Splits a b ∨ a = b ∧ ∃ u, v.part a = .ok u ∧ u.Apart p q') := by
  cases q with
  | nil => exact h.elim
  | cons b q' => exact ⟨b, q', rfl, h⟩

/-- Behind the last access of a path nothing is disjoint from it. -/
theorem Apart.last {q : List Access} (h : v.Apart [a] q) :
    ∃ b q', q = b :: q' ∧ v.Splits a b := by
  obtain ⟨b, q', rfl, hsplit | ⟨-, u, -, hu⟩⟩ := h.cases
  · exact ⟨b, q', rfl, hsplit⟩
  · cases q' <;> exact hu.elim

/-! ## Changes -/

theorem replace_apply (new v : Value) : (replace new).apply v =
    match coerceLike v new with
    | .ok kept => (.ok (), kept)
    | .error e => (.error e, v) := by
  show (liftM (coerceLike v new) >>= fun kept => set kept : Change Value Unit).apply v = _
  cases coerceLike v new <;> rfl

theorem within_apply (a : Access) (c : Change Value Unit) (v : Value) : (within a c).apply v =
    match v.slot a with
    | .ok old => ((c.apply old).1, v.withSlot a (c.apply old).2)
    | .error e => (.error e, v) := by
  show (liftM (v.slot a) >>= fun old =>
    Change.onPart old (v.withSlot a) c : Change Value Unit).apply v = _
  cases v.slot a <;> rfl

theorem assignEach_apply (swizzle : String) (i : Nat) (new : Value) (rest : List (Nat × Value))
    (items : List Value) : (assignEach swizzle ((i, new) :: rest)).apply items =
      match items[i]? with
      | none => (.error (invalidSwizzle swizzle), items)
      | some old =>
        match coerceLike old new with
        | .error e => (.error e, items)
        | .ok kept => (assignEach swizzle rest).apply (items.set i kept) := by
  rw [assignEach]
  show (match items[i]? with
    | none => throw (invalidSwizzle swizzle)
    | some old => liftM (coerceLike old new) >>= fun kept => do
      set (items.set i kept)
      assignEach swizzle rest : Change (List Value) Unit).apply items = _
  cases items[i]? with
  | none => rfl
  | some old =>
    dsimp only
    cases coerceLike old new <;> rfl

/-- The items after assigning to some of them, one after another. -/
inductive Assigned : List (Nat × Value) → List Value → List Value → Prop where
  | nil (items : List Value) : Assigned [] items items
  | cons {i : Nat} {old new kept : Value} {pairs : List (Nat × Value)} {items items' : List Value}
      (hi : items[i]? = some old) (hk : coerceLike old new = .ok kept)
      (rest : Assigned pairs (items.set i kept) items') : Assigned ((i, new) :: pairs) items items'

/-- There is no such item, or what is assigned does not go into its place. -/
def Refuses (items : List Value) (i : Nat) (new : Value) : Prop :=
  ∀ old, items[i]? = some old → ∃ e, coerceLike old new = .error e

/-- Assigning to one item after another comes to its end, or stops at an item that refuses. -/
theorem assignEach_cases (swizzle : String) (pairs : List (Nat × Value)) (items : List Value) :
    (∃ items', Assigned pairs items items' ∧
      (assignEach swizzle pairs).apply items = (.ok (), items')) ∨
    ∃ done i new rest items' e, pairs = done ++ (i, new) :: rest ∧ Assigned done items items' ∧
      Refuses items' i new ∧ (assignEach swizzle pairs).apply items = (.error e, items') := by
  induction pairs generalizing items with
  | nil => exact .inl ⟨items, .nil items, rfl⟩
  | cons pair rest ih =>
    obtain ⟨i, new⟩ := pair
    cases hi : items[i]? with
    | none =>
      refine .inr ⟨[], i, new, rest, items, invalidSwizzle swizzle, rfl, .nil items,
        fun old h => ?_, ?_⟩
      · cases hi.symm.trans h
      · simp only [assignEach_apply, hi]
    | some old =>
      cases hk : coerceLike old new with
      | error e =>
        refine .inr ⟨[], i, new, rest, items, e, rfl, .nil items, fun x hx => ?_, ?_⟩
        · cases hi.symm.trans hx
          exact ⟨e, hk⟩
        · simp only [assignEach_apply, hi, hk]
      | ok kept =>
        simp only [assignEach_apply, hi, hk]
        obtain ⟨items', ha, happly⟩ | ⟨done, j, other, more, items', e, rfl, ha, hr, happly⟩ :=
          ih (items.set i kept)
        · exact .inl ⟨items', .cons hi hk ha, happly⟩
        · exact .inr ⟨(i, new) :: done, j, other, more, items', e, rfl, .cons hi hk ha, hr, happly⟩

theorem assignSwizzle_apply (swizzle : String) (new : Value) (items : List Value) :
    (assignSwizzle swizzle new).apply items =
      match swizzleIndices? swizzle with
      | none => (.error (invalidSwizzle swizzle), items)
      | some indices =>
        if new.components.length = indices.length then
          (assignEach swizzle (indices.zip new.components)).apply items
        else
          (.error (RunCause.vectorLength indices.length new.components.length).unplaced,
            items) := by
  unfold assignSwizzle
  cases swizzleIndices? swizzle with
  | none => rfl
  | some indices =>
    dsimp only
    split <;> rfl

theorem assignColumn_apply (i : Int) (new : Value) (columns : List (List Single)) :
    (assignColumn i new).apply columns =
      match element columns i, new.numbers with
      | .error e, _ => (.error e, columns)
      | .ok _, .error e => (.error e, columns)
      | .ok old, .ok column =>
        if column.length = old.length then (.ok (), columns.set i.toNat column)
        else (.error (RunCause.vectorLength old.length column.length).unplaced, columns) := by
  show (liftM (element columns i) >>= fun old => liftM new.numbers >>= fun column =>
    if column.length = old.length then set (columns.set i.toNat column)
    else throw (RunCause.vectorLength old.length column.length).unplaced :
    Change (List (List Single)) Unit).apply columns = _
  cases element columns i with
  | error e => rfl
  | ok old =>
    cases new.numbers with
    | error e => rfl
    | ok column =>
      show (if column.length = old.length then set (columns.set i.toNat column)
        else throw (RunCause.vectorLength old.length column.length).unplaced :
        Change (List (List Single)) Unit).apply columns = _
      dsimp only
      split <;> rfl

/-- The end of a path at a vector. -/
theorem assignPath_vector (items : List Value) (s : String) (new : Value) :
    (assignPath [.member s] new).apply (.vector items) =
      (((assignSwizzle s new).apply items).1, .vector ((assignSwizzle s new).apply items).2) := rfl

/-- The end of a path at a matrix. -/
theorem assignPath_matrix (columns : List (List Single)) (i : Int) (new : Value) :
    (assignPath [.index i] new).apply (.matrix columns) =
      (((assignColumn i new).apply columns).1,
        .matrix ((assignColumn i new).apply columns).2) := rfl

/-- Induction along the path of an assignment: it replaces a whole value, it ends in a swizzle or in
a column, or it goes into a slot. -/
theorem assignPath_induction (new : Value) {motive : Value → List Access → Prop}
    (whole : ∀ v, motive v [])
    (swizzle : ∀ items s, motive (.vector items) [.member s])
    (column : ∀ columns i, motive (.matrix columns) [.index i])
    (inner : ∀ v a rest, (∀ items s, v = .vector items → a = .member s → rest = [] → False) →
      (∀ columns i, v = .matrix columns → a = .index i → rest = [] → False) →
      (assignPath (a :: rest) new).apply v = (within a (assignPath rest new)).apply v →
      (∀ old, v.HasSlot a old → motive old rest) → motive v (a :: rest))
    (v : Value) (path : List Access) : motive v path := by
  induction path generalizing v with
  | nil => exact whole v
  | cons a rest ih =>
    cases rest with
    | cons b rest => exact inner v a (b :: rest) nofun nofun rfl fun old _ => ih old
    | nil =>
      cases v with
      | vector items =>
        cases a with
        | member s => exact swizzle items s
        | index i => exact inner _ _ _ nofun nofun rfl fun old _ => ih old
      | matrix columns =>
        cases a with
        | index i => exact column columns i
        | member s => exact inner _ _ _ nofun nofun rfl fun old _ => ih old
      | _ => exact inner _ _ _ nofun nofun rfl fun old _ => ih old

/-! ## Failed assignments -/

/-- An assignment that stopped inside a swizzle of several letters: the components in front of one
that refuses have been assigned to, and nothing else has changed. -/
inductive Interrupted (new : Value) : Value → List Access → Value → Prop where
  | swizzle {items items' : List Value} {swizzle : String} {indices : List Nat}
      {first second : Nat × Value} {done rest : List (Nat × Value)}
      (hs : swizzleIndices? swizzle = some indices)
      (hlen : new.components.length = indices.length)
      (hpairs : indices.zip new.components = first :: done ++ second :: rest)
      (hdone : Assigned (first :: done) items items') (hr : Refuses items' second.1 second.2) :
      Interrupted new (.vector items) [.member swizzle] (.vector items')
  | within {v old old' : Value} {a : Access} {rest : List Access} (h : v.HasSlot a old)
      (hrest : Interrupted new old rest old') : Interrupted new v (a :: rest) (v.withSlot a old')

theorem assignPath_error {x x' new : Value} {path : List Access} {e : RunError}
    (h : (assignPath path new).apply x = (.error e, x')) : x' = x ∨ Interrupted new x path x' := by
  induction x, path using assignPath_induction new generalizing x' with
  | whole v =>
    rw [assignPath, replace_apply] at h
    cases hk : coerceLike v new with
    | ok kept =>
      rw [hk] at h
      cases h
    | error e =>
      rw [hk] at h
      cases h
      exact .inl rfl
  | swizzle items s =>
    rw [assignPath_vector, assignSwizzle_apply] at h
    cases hs : swizzleIndices? s with
    | none =>
      simp only [hs] at h
      cases h
      exact .inl rfl
    | some indices =>
      simp only [hs] at h
      split at h
      · rename_i hlen
        obtain ⟨items', -, hrun⟩ | ⟨done, i, part, rest, items', e, hpairs, hdone, hr, hrun⟩ :=
          assignEach_cases s (indices.zip new.components) items
        · rw [hrun] at h
          cases h
        · rw [hrun] at h
          cases h
          cases done with
          | nil =>
            cases hdone
            exact .inl rfl
          | cons first done => exact .inr (.swizzle hs hlen hpairs hdone hr)
      · cases h
        exact .inl rfl
  | column columns i =>
    rw [assignPath_matrix, assignColumn_apply] at h
    split at h
    · cases h
      exact .inl rfl
    · cases h
      exact .inl rfl
    · split at h <;> cases h
      exact .inl rfl
  | inner v a rest hvector hmatrix hstep ih =>
    rw [hstep, within_apply] at h
    cases hslot : v.slot a with
    | error e =>
      rw [hslot] at h
      cases h
      exact .inl rfl
    | ok old =>
      have hold := slot_eq_ok.1 hslot
      rw [hslot] at h
      rcases hrun : (assignPath rest new).apply old with ⟨outcome, old'⟩
      simp only [hrun] at h
      cases h
      rcases ih old hold hrun with rfl | hint
      · exact .inl hold.withSlot_self
      · exact .inr (.within hold hint)

theorem convert_scalar (kind : ScalarKind) (h : v.isScalar = true) :
    ∃ kept, v.convert kind = .ok kept ∧ kept.isScalar = true := by
  cases v <;> first | (cases kind <;> exact ⟨_, rfl, rfl⟩) | cases h

/-- A scalar always goes into the place of a scalar. -/
theorem coerceLike_scalar (h : old.isScalar = true) (h' : new.isScalar = true) :
    ∃ kept, coerceLike old new = .ok kept ∧ kept.isScalar = true := by
  have single : ∀ v : Value, v.isScalar = true →
      v.vectorLength? = none ∧ ∃ kind, v.scalarKind? = some kind := by
    intro v hv
    cases v <;> first | exact ⟨rfl, _, rfl⟩ | cases hv
  obtain ⟨hold, kind, hkind⟩ := single old h
  obtain ⟨hnew, found, hfound⟩ := single new h'
  simp only [coerceLike, hold, hnew, h, h', Bool.and_self, if_true, inKindOf, hkind, hfound]
  split
  · exact ⟨new, rfl, h'⟩
  · exact convert_scalar kind h'

/-- Scalars that are assigned to scalars leave scalars. -/
theorem Assigned.scalar {pairs : List (Nat × Value)} (h : Assigned pairs items items')
    (hnew : ∀ p ∈ pairs, p.2.isScalar = true) {i : Nat}
    (hi : ∃ old, items[i]? = some old ∧ old.isScalar = true) :
    ∃ old, items'[i]? = some old ∧ old.isScalar = true := by
  induction h with
  | nil items => exact hi
  | @cons j old new kept pairs items items' hj hk rest ih =>
    refine ih (fun p hp => hnew p (List.mem_cons_of_mem _ hp)) ?_
    obtain ⟨x, hx, hscalar⟩ := hi
    by_cases hij : j = i
    · subst hij
      cases hj.symm.trans hx
      obtain ⟨kept', hk', hkept⟩ := coerceLike_scalar hscalar (hnew _ List.mem_cons_self)
      cases hk.symm.trans hk'
      exact ⟨kept, List.getElem?_set_self (List.getElem?_eq_some_iff.1 hx).1, hkept⟩
    · exact ⟨x, by rw [List.getElem?_set_ne hij]; exact hx, hscalar⟩

/-- If the path ends in a swizzle of several letters, each letter stands for a scalar of the vector,
and so do the components that are assigned. -/
def InPlace (x : Value) (path : List Access) (new : Value) : Prop :=
  ∀ front swizzle items indices, path = front ++ [.member swizzle] →
    x.atPath front = .ok (.vector items) → swizzleIndices? swizzle = some indices →
      1 < indices.length → (∀ i ∈ indices, ∃ old, items[i]? = some old ∧ old.isScalar = true) ∧
        ∀ part ∈ new.components, part.isScalar = true

theorem InPlace.inner (h : v.InPlace (a :: path) new) (hold : v.HasSlot a old) :
    old.InPlace path new := by
  intro front swizzle items indices hpath hfront
  refine h (a :: front) swizzle items indices (by rw [hpath, List.cons_append]) ?_
  rw [atPath_cons, hold.part]
  exact hfront

theorem InPlace.not_interrupted (h : v.InPlace path new) {v' : Value} :
    ¬ Interrupted new v path v' := by
  intro hint
  induction hint with
  | @swizzle items items' s indices first second done rest hs hlen hpairs hdone hr =>
    have hlength : 1 < indices.length := by
      have hzip := congrArg List.length hpairs
      rw [List.length_zip, hlen, Nat.min_self] at hzip
      simp only [List.cons_append, List.length_cons, List.length_append] at hzip
      omega
    obtain ⟨hitems, hparts⟩ := h [] s items indices rfl rfl hs hlength
    have hmem : ∀ p ∈ first :: done ++ second :: rest, p.1 ∈ indices ∧ p.2 ∈ new.components :=
      fun p hp => List.of_mem_zip (hpairs ▸ hp)
    obtain ⟨hi, hpart⟩ := hmem second (by simp)
    obtain ⟨old, hold, hscalar⟩ := hdone.scalar
      (fun p hp => hparts _ (hmem p (List.mem_append_left _ hp)).2) (hitems _ hi)
    obtain ⟨e, he⟩ := hr old hold
    obtain ⟨kept, hk, -⟩ := coerceLike_scalar hscalar (hparts _ hpart)
    cases he.symm.trans hk
  | within hold hrest ih => exact ih (h.inner hold)

/-- An assignment that fails leaves the value as it was, unless it stopped inside a swizzle of
several letters behind a component that it had assigned to. It does not stop there where every
letter stands for a scalar of the vector and scalars are assigned. -/
theorem assignPath_failed {x x' new : Value} {path : List Access} {e : RunError}
    (h : (assignPath path new).apply x = (.error e, x')) :
    (x' = x ∨ Interrupted new x path x') ∧ (x.InPlace path new → x' = x) :=
  ⟨assignPath_error h, fun hin => (assignPath_error h).resolve_right hin.not_interrupted⟩

/-- Two components for three letters: the length is checked in front of the first component. -/
theorem assignPath_failed_length :
    let x : Value := .struct "S" [("v", .vector [.i32 1, .i32 2, .i32 3])]
    let path : List Access := [.member "v", .member "zyx"]
    let new : Value := .vector [.i32 5, .i32 6]
    x.InPlace path new ∧ ∃ e x', (assignPath path new).apply x = (.error e, x') ∧ x' = x := by
  intro x path new
  have hin : x.InPlace path new := by
    intro front swizzle items indices hpath hfront hs _
    obtain ⟨rfl, hlast⟩ := List.append_inj'
      (show [Access.member "v"] ++ [.member "zyx"] = front ++ [.member swizzle] from hpath) rfl
    cases hlast
    cases hfront
    cases hs
    exact ⟨by simp [isScalar], by simp [new, components, isScalar]⟩
  exact ⟨hin, _, _, rfl, (assignPath_failed rfl).2 hin⟩

/-- A swizzle with a letter behind the end of the vector: the letter in front of it has been
assigned to when the assignment fails. -/
theorem assignPath_torn : ∃ (x new x' : Value) (path : List Access) (e : RunError),
    (assignPath path new).apply x = (.error e, x') ∧ x' ≠ x :=
  ⟨.vector [.i32 1, .i32 2], .vector [.i32 5, .i32 6], .vector [.i32 5, .i32 2], [.member "xz"],
    invalidSwizzle "xz", rfl, by simp⟩

/-! ## What an assignment leaves -/

/-- A single component stands for itself, several make a vector. -/
def together : List Value → Value
  | [v] => v
  | items => .vector items

/-- The component with a number, for a swizzle that selects it. -/
def componentAt (swizzle : String) (items : List Value) (i : Nat) : Run Value :=
  match items[i]? with
  | some v => pure v
  | none => throw (invalidSwizzle swizzle)

theorem componentAt_eq {i : Nat} (h : items[i]? = some v) :
    componentAt swizzle items i = .ok v := by
  simp only [componentAt, h]
  rfl

theorem pick_eq {indices : List Nat} (hs : swizzleIndices? swizzle = some indices)
    (items : List Value) :
    pick swizzle items = together <$> indices.mapM (componentAt swizzle items) := by
  simp only [pick, hs, map_eq_pure_bind]
  refine congrArg (_ >>= ·) (funext fun picked => ?_)
  rcases picked with _ | ⟨v, _ | ⟨w, rest⟩⟩ <;> rfl

/-- What is put at the end of a path: the new value in the kind of what it replaces, behind a
swizzle each component in the kind of its place, and in a column the components as floats. -/
def settled : Value → List Access → Value → Run Value
  | v, [], new => coerceLike v new
  | .vector items, [.member swizzle], new =>
    match swizzleIndices? swizzle with
    | none => throw (invalidSwizzle swizzle)
    | some indices => together <$> (indices.zip new.components).mapM fun p => do
        coerceLike (← componentAt swizzle items p.1) p.2
  | .matrix _, [.index _], new => ofSingles <$> new.numbers
  | v, a :: rest, new => do settled (← v.part a) rest new

/-- No component is named twice where the path ends in a swizzle. -/
def NoRepeat (x : Value) (path : List Access) : Prop :=
  ∀ front swizzle items indices, path = front ++ [.member swizzle] →
    x.atPath front = .ok (.vector items) → swizzleIndices? swizzle = some indices → indices.Nodup

theorem NoRepeat.inner (h : v.NoRepeat (a :: path)) (hold : v.HasSlot a old) :
    old.NoRepeat path := by
  intro front swizzle items indices hpath hfront
  refine h (a :: front) swizzle items indices (by rw [hpath, List.cons_append]) ?_
  rw [atPath_cons, hold.part]
  exact hfront

theorem Assigned.length {pairs : List (Nat × Value)} (h : Assigned pairs items items') :
    items'.length = items.length := by
  induction h with
  | nil => rfl
  | cons _ _ _ ih => rw [ih, List.length_set]

/-- Items that are not assigned to stay. -/
theorem Assigned.other {pairs : List (Nat × Value)} (h : Assigned pairs items items') {i : Nat}
    (hi : i ∉ pairs.map Prod.fst) : items'[i]? = items[i]? := by
  induction h with
  | nil => rfl
  | cons _ _ _ ih =>
    rw [List.map_cons, List.mem_cons, not_or] at hi
    rw [ih hi.2, List.getElem?_set_ne (Ne.symm hi.1)]

/-- Items that are assigned to once hold what was assigned, in the kind of what they held. -/
theorem Assigned.settled {pairs : List (Nat × Value)} (h : Assigned pairs items items')
    (hn : (pairs.map Prod.fst).Nodup) (swizzle : String) :
    ∃ kept, (pairs.mapM fun p => do coerceLike (← componentAt swizzle items p.1) p.2) = .ok kept ∧
      (pairs.map Prod.fst).mapM (componentAt swizzle items') = .ok kept := by
  induction h with
  | nil => exact ⟨[], rfl, rfl⟩
  | @cons i old new kept pairs items items' hi hk rest ih =>
    rw [List.map_cons, List.nodup_cons] at hn
    obtain ⟨more, hbefore, hafter⟩ := ih hn.2
    have hset : items'[i]? = some kept := by
      rw [rest.other hn.1]
      exact List.getElem?_set_self (List.getElem?_eq_some_iff.1 hi).1
    have hsame : ∀ p ∈ pairs,
        componentAt swizzle (items.set i kept) p.1 = componentAt swizzle items p.1 := by
      intro p hp
      have hne : i ≠ p.1 := by
        intro he
        exact hn.1 (List.mem_map.2 ⟨p, hp, he.symm⟩)
      rw [componentAt, componentAt, List.getElem?_set_ne hne]
    have hmore : (pairs.mapM fun p => do coerceLike (← componentAt swizzle items p.1) p.2) =
        .ok more := by
      rw [← hbefore]
      exact mapM_congr fun p hp => by rw [hsame p hp]
    refine ⟨kept :: more, ?_, ?_⟩
    · rw [List.mapM_cons, hmore, componentAt_eq hi]
      show (coerceLike old new >>= _) = _
      rw [hk]
      rfl
    · rw [List.map_cons, List.mapM_cons, hafter, componentAt_eq hset]
      rfl

/-- The lens laws: after an assignment the path selects what was put there, and whatever is disjoint
from it is as before. -/
theorem assignPath_lens {x x' new : Value} {path : List Access}
    (h : (assignPath path new).apply x = (.ok (), x')) :
    (x.NoRepeat path → ∃ kept, x.settled path new = .ok kept ∧ x'.atPath path = .ok kept) ∧
      ∀ q, x.Apart path q → x'.atPath q = x.atPath q := by
  induction x, path using assignPath_induction new generalizing x' with
  | whole v =>
    rw [assignPath, replace_apply] at h
    refine ⟨fun _ => ?_, nofun⟩
    cases hk : coerceLike v new with
    | ok kept =>
      rw [hk] at h
      cases h
      exact ⟨x', hk, rfl⟩
    | error e =>
      rw [hk] at h
      cases h
  | swizzle items s =>
    rw [assignPath_vector, assignSwizzle_apply] at h
    cases hs : swizzleIndices? s with
    | none =>
      simp only [hs] at h
      cases h
    | some indices =>
      simp only [hs] at h
      split at h
      · rename_i hlen
        have hnames : (indices.zip new.components).map Prod.fst = indices :=
          List.map_fst_zip (Nat.le_of_eq hlen.symm)
        obtain ⟨items', hdone, hrun⟩ | ⟨done, i, part, rest, items', e, -, -, -, hrun⟩ :=
          assignEach_cases s (indices.zip new.components) items
        · rw [hrun] at h
          cases h
          refine ⟨fun hn => ?_, fun q hq => ?_⟩
          · have hnodup := hn [] s items indices rfl rfl hs
            obtain ⟨kept, hbefore, hafter⟩ := hdone.settled (hnames.symm ▸ hnodup) s
            rw [hnames] at hafter
            refine ⟨together kept, ?_, ?_⟩
            · simp only [Value.settled, hs, hbefore]
              rfl
            · rw [atPath_cons, part, pick_eq hs, hafter]
              rfl
          · obtain ⟨b, q', rfl, hsplit⟩ := hq.last
            rw [atPath_cons, atPath_cons, part_vector_congr hdone.length fun i hi => hdone.other ?_]
            rw [hnames]
            intro hmem
            exact hsplit i (by simpa only [Access.components, hs, Option.getD_some] using hmem) hi
        · rw [hrun] at h
          cases h
      · cases h
  | column columns i =>
    rw [assignPath_matrix, assignColumn_apply] at h
    split at h
    · cases h
    · cases h
    · rename_i old column hold hcolumn
      split at h <;> cases h
      obtain ⟨hpos, hi⟩ := element_eq_ok.1 hold
      refine ⟨fun _ => ⟨ofSingles column, by rw [Value.settled, hcolumn]; rfl, ?_⟩, fun q hq => ?_⟩
      · have hset : element (columns.set i.toNat column) i = .ok column :=
          element_eq_ok.2 ⟨hpos, List.getElem?_set_self (List.getElem?_eq_some_iff.1 hi).1⟩
        rw [atPath_cons, part, hset]
        rfl
      · obtain ⟨b, q', rfl, hsplit⟩ := hq.last
        cases b with
        | member m => exact hsplit.elim
        | index j =>
          have hother : element (columns.set i.toNat column) j = element columns j := by
            unfold element
            by_cases hj : j < 0
            · simp only [hj, if_true, List.length_set]
            · have hne : i.toNat ≠ j.toNat := fun he => hsplit (by omega)
              simp only [hj, if_false, List.length_set, List.getElem?_set_ne hne]
          rw [atPath_cons, atPath_cons, part, part, hother]
  | inner v a rest hvector hmatrix hstep ih =>
    rw [hstep, within_apply] at h
    cases hslot : v.slot a with
    | error e =>
      rw [hslot] at h
      cases h
    | ok old =>
      have hold := slot_eq_ok.1 hslot
      rw [hslot] at h
      rcases hrun : (assignPath rest new).apply old with ⟨outcome, old'⟩
      simp only [hrun] at h
      cases h
      obtain ⟨hput, hother⟩ := ih old hold hrun
      refine ⟨fun hn => ?_, fun q hq => ?_⟩
      · obtain ⟨kept, hkept, hget⟩ := hput (hn.inner hold)
        refine ⟨kept, ?_, ?_⟩
        · rw [Value.settled, hold.part]
          · exact hkept
          · exact hvector
          · exact hmatrix
        · rw [atPath_cons, (hold.withSlot old').part]
          exact hget
      · obtain ⟨b, q', rfl, hsplit | ⟨rfl, u, hu, hapart⟩⟩ := hq.cases
        · rw [atPath_cons, atPath_cons, hold.part_withSlot hsplit]
        · cases hold.part.symm.trans hu
          rw [atPath_cons, atPath_cons, hold.part, (hold.withSlot old').part]
          exact hother q' hapart

/-- Two components of a vector in an array: the one between them stays, and so does the matrix. -/
theorem assignPath_lens_grid :
    let x : Value := .struct "Grid" [("cells", .array [.vector [.f32 .zero, .f32 .one, .f32 .zero],
      .vector [.f32 .one, .f32 .one, .f32 .one]]), ("turn", .matrix [[.zero, .one], [.one, .zero]])]
    let path : List Access := [.member "cells", .index 1, .member "zx"]
    let new : Value := .vector [.i32 3, .bool false]
    ∃ x', (assignPath path new).apply x = (.ok (), x') ∧
      x'.atPath path = .ok (.vector [.f32 (.ofInt 3), .f32 .zero]) ∧
      x'.atPath [.member "cells", .index 1, .member "y"] = .ok (.f32 .one) ∧
      x'.atPath [.member "turn"] = x.atPath [.member "turn"] := by
  intro x path new
  have hnodup : x.NoRepeat path := by
    intro front swizzle items indices hpath _ hs
    obtain ⟨-, hlast⟩ := List.append_inj'
      (show [Access.member "cells", .index 1] ++ [.member "zx"] =
        front ++ [.member swizzle] from hpath) rfl
    cases hlast
    cases hs
    decide
  have hrun : (assignPath path new).apply x = (.ok (), _) := rfl
  obtain ⟨hput, hother⟩ := assignPath_lens hrun
  obtain ⟨kept, hkept, hget⟩ := hput hnodup
  cases hkept
  refine ⟨_, hrun, hget, ?_, ?_⟩
  · rw [hother [.member "cells", .index 1, .member "y"]]
    · rfl
    · exact .inr ⟨rfl, _, rfl, .inr ⟨rfl, _, rfl, .inl (show ∀ i ∈ [2, 0], i ∉ [1] by decide)⟩⟩
  · exact hother [.member "turn"] (.inl (show "cells" ≠ "turn" by decide))

end Value
end Wgsl
