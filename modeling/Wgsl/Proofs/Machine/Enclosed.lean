import Wgsl.Proofs.Machine.Interpreter
import Wgsl.Proofs.Scope.Lookup

/-! # What an expression at module scope depends on

While only the root is open, an expression that calls no declared function reads and writes what it
mentions and nothing else, as long as what it mentions holds neither textures nor pointers to
anything else. So it has one outcome on all machines that agree on the mentioned names, and it leaves
everything else as it was.

* `Value.Among`: the value holds no texture and points to the given names at most.
* `Machine.Agree`, `Machine.Spares`: two machines that agree on the names, and what a run leaves
  alone.
* `Eval.KeepsTo`: a computation that looks at the names only; it passes from the parts to the whole.
* `Eval.keepsTo_expr`: by induction over expressions, one case for each form.
-/

namespace Wgsl
set_option autoImplicit false

open Value (rename)

/-! ## The root alone -/

namespace ScopeArena

variable {α : Type} {t : Table α} {name : String} {v : α}

/-- The arena in which nothing but the root is open. -/
def alone (t : Table α) : ScopeArena α := ⟨#[⟨none, t⟩]⟩

theorem alone_injective {t t' : Table α} (h : alone t = alone t') : t = t' := by
  have scopes : #[Scope.mk none t] = #[Scope.mk none t'] := ScopeArena.mk.inj h
  simpa using scopes

theorem findIn?_alone : (alone t).findIn? root name = t.find? name := rfl

theorem lookup_alone : (alone t).lookup root name = (t.find? name).map fun v => (root, v) := by
  change (alone t).lookupWithin name (0 + 1) root = _
  rw [lookupWithin_succ, findIn?_alone]
  exact Option.or_none

end ScopeArena

/-! ## Values that point to some names only -/

variable {α β : Type} {names : String → Prop}

/-- Only the names are read, and no declared function is called. -/
def Mention.Within (s : Shader) (names : String → Prop) : Mention → Prop
  | .variable_ name => names name
  | .call name => s.function? name = none
  | _ => True

/-- The place is in a variable of the module that has one of the names. -/
def Place.Among (names : String → Prop) (q : Place) : Prop :=
  match q.root with
  | .buffer _ => False
  | .variable_ scope name => scope = ScopeArena.root ∧ names name

open Classical in
/-- Leaves the places among the names, and no texture. -/
noncomputable def Renaming.among (names : String → Prop) : Renaming where
  place q := if q.Among names then q else q.below (.index 0)
  texture i := i + 1

/-- The value holds no texture, and no pointer to anything but the names. -/
def Value.Among (names : String → Prop) (v : Value) : Prop := v.rename (.among names) = v

/-- The slot holds such a value. -/
def Slot.Among (names : String → Prop) : Slot → Prop
  | .value v => v.Among names
  | .view _ => False

theorem Place.Among.below {q : Place} (h : q.Among names) (a : Access) :
    (q.below a).Among names := h

namespace Value

variable {v u : Value}

theorem among_pointer {q : Place} : Among names (.pointer q) ↔ q.Among names := by
  unfold Among
  rw [rename_pointer, pointer.injEq]
  unfold Renaming.among
  dsimp only
  split
  · exact iff_of_true rfl ‹_›
  · refine iff_of_false (fun e => ?_) ‹_›
    have := congrArg (fun q => q.path.length) e
    simp [Place.below] at this

theorem not_among_texture {i : TextureId} : ¬Among names (.texture i) := fun h =>
  Nat.succ_ne_self i (texture.inj h)

/-- What does not hold names has no names to hand on. -/
theorem among_of_plain (h : ∀ ρ, rename ρ v = v) : v.Among names := h _

theorem among_of_map {r : Run Value} (h : r = rename (.among names) <$> r) (hv : r = .ok v) :
    v.Among names := by
  rw [hv] at h
  exact (Except.ok.inj h).symm

theorem Among.of_natural {f : Value → Run Value} (hf : ∀ ρ, Natural ρ f) (h : v.Among names)
    (hu : f v = .ok u) : u.Among names := by
  have natural := hf (.among names) v
  rw [h] at natural
  exact among_of_map natural hu

theorem Among.of_natural₂ {f : Value → Value → Run Value} (hf : ∀ ρ, Natural₂ ρ f) {w : Value}
    (h : v.Among names) (hw : w.Among names) (hu : f v w = .ok u) : u.Among names := by
  have natural := hf (.among names) v w
  rw [h, hw] at natural
  exact among_of_map natural hu

theorem Among.assigned (path : List Access) {old new : Value} (hold : old.Among names)
    (hnew : new.Among names) : ((assignPath path new).apply old).2.Among names := by
  have alike := alike_assignPath (ρ := .among names) path new old
  rw [hold, hnew] at alike
  exact (congrArg Prod.snd alike).symm

theorem map_among {vs : List Value} (h : ∀ v ∈ vs, v.Among names) :
    vs.map (rename (.among names)) = vs := (List.map_congr_left h).trans (List.map_id' vs)

theorem among_construct {t : TypeInfo} {inferred : Bool} {vs : List Value}
    (h : ∀ v ∈ vs, v.Among names) (hu : construct t inferred vs = .ok u) : u.Among names := by
  have natural := natural_construct (ρ := .among names) t inferred vs
  rw [map_among h] at natural
  exact among_of_map natural hu

theorem among_call? {name : String} {vs : List Value} (h : ∀ v ∈ vs, v.Among names) {r : Run Value}
    (hr : Library.call? name vs = some r) (hu : r = .ok u) : u.Among names := by
  have natural := Library.natural_call? (ρ := .among names) name vs
  rw [map_among h, hr] at natural
  exact among_of_map (Option.some.inj natural) hu

end Value

/-! ## Machines that agree on some names -/

/-- Two machines with the root alone, in which the names are bound to the same and to nothing that
leads away from them. -/
structure Machine.Agree (names : String → Prop) (m m' : Machine) : Prop where
  layouts : m'.layouts = m.layouts
  callResults : m'.callResults = m.callResults
  pending : ∀ r ∈ m.callResults, r.2.Among names
  tables : ∃ t t', m.scopes = .alone t ∧ m'.scopes = .alone t' ∧
    ∀ n, names n → t'.find? n = t.find? n ∧ ∀ slot, t.find? n = some slot → slot.Among names

/-- What a run leaves alone that keeps to the names: everything but layouts and the values of the
names. -/
structure Machine.Spares (names : String → Prop) (m m₁ : Machine) : Prop where
  rest : m₁ = { m with layouts := m₁.layouts, scopes := m₁.scopes }
  tables : ∀ t, m.scopes = .alone t → ∃ t₁, m₁.scopes = .alone t₁ ∧
    t₁.map Prod.fst = t.map Prod.fst ∧ ∀ n, ¬names n → t₁.find? n = t.find? n

namespace Machine

variable {m m' m₁ m₂ : Machine} {q : Place} {v : Value}

theorem Agree.symm (h : m.Agree names m') : m'.Agree names m := by
  obtain ⟨t, t', ht, ht', same⟩ := h.tables
  refine ⟨h.layouts.symm, h.callResults.symm, h.callResults ▸ h.pending, t', t, ht', ht,
    fun n hn => ⟨(same n hn).1.symm, fun slot hslot => ?_⟩⟩
  exact (same n hn).2 slot ((same n hn).1 ▸ hslot)

theorem Agree.withLayouts (h : m.Agree names m') (l : Layouts) :
    Agree names { m with layouts := l } { m' with layouts := l } := { h with layouts := rfl }

theorem Spares.refl (m : Machine) : m.Spares names m := ⟨rfl, fun t ht => ⟨t, ht, rfl, fun _ _ => rfl⟩⟩

theorem Spares.trans (h : m.Spares names m₁) (h' : m₁.Spares names m₂) : m.Spares names m₂ where
  rest := by
    rw [h'.rest, h.rest]
  tables t ht := by
    obtain ⟨t₁, ht₁, keys, kept⟩ := h.tables t ht
    obtain ⟨t₂, ht₂, keys', kept'⟩ := h'.tables t₁ ht₁
    exact ⟨t₂, ht₂, keys'.trans keys, fun n hn => (kept' n hn).trans (kept n hn)⟩

theorem Agree.nameValue (h : m.Agree names m') {name : String} (hn : names name) :
    m'.nameValue ScopeArena.root name = m.nameValue ScopeArena.root name ∧
      ∀ v, m.nameValue ScopeArena.root name = .ok v → v.Among names := by
  obtain ⟨t, t', ht, ht', same⟩ := h.tables
  obtain ⟨found, among⟩ := same name hn
  unfold Machine.nameValue
  rw [ht, ht', ScopeArena.lookup_alone, ScopeArena.lookup_alone, found]
  cases hf : t.find? name with
  | none => exact ⟨rfl, nofun⟩
  | some slot =>
    have hslot := among slot hf
    cases slot with
    | view view => exact hslot.elim
    | value u => exact ⟨rfl, fun v hv => by cases hv; exact hslot⟩

theorem Agree.namePlace (h : m.Agree names m') {name : String} (hn : names name) (line : Nat) :
    m'.namePlace ScopeArena.root name line = m.namePlace ScopeArena.root name line ∧
      ∀ q, m.namePlace ScopeArena.root name line = .ok q → q.Among names := by
  obtain ⟨t, t', ht, ht', same⟩ := h.tables
  obtain ⟨found, among⟩ := same name hn
  unfold Machine.namePlace
  rw [ht, ht', ScopeArena.lookup_alone, ScopeArena.lookup_alone, found]
  refine ⟨rfl, ?_⟩
  cases hf : t.find? name with
  | none => exact nofun
  | some slot =>
    have hslot := among slot hf
    rintro q ⟨⟩
    cases slot with
    | view view => exact hslot.elim
    | value u =>
      cases u with
      | pointer q => exact Value.among_pointer.1 hslot
      | _ => exact ⟨rfl, hn⟩

theorem Agree.readPlace (h : m.Agree names m') (hq : q.Among names) :
    m'.readPlace q = m.readPlace q ∧ ∀ v, m.readPlace q = .ok v → v.Among names := by
  obtain ⟨root, path⟩ := q
  cases root with
  | buffer view => exact hq.elim
  | variable_ scope name =>
    obtain ⟨rfl, hn⟩ := hq
    obtain ⟨t, t', ht, ht', same⟩ := h.tables
    obtain ⟨found, among⟩ := same name hn
    unfold Machine.readPlace
    dsimp only
    rw [ht, ht', ScopeArena.findIn?_alone, ScopeArena.findIn?_alone, found]
    cases hf : t.find? name with
    | none => exact ⟨rfl, nofun⟩
    | some slot =>
      have hslot := among slot hf
      cases slot with
      | view view => exact hslot.elim
      | value u =>
        exact ⟨rfl, fun v hv => hslot.of_natural (f := fun u => u.atPath path)
          (fun _ => Value.natural_atPath path) hv⟩

theorem Agree.countAt (h : m.Agree names m') (hq : q.Among names) : m'.countAt q = m.countAt q := by
  have read := (h.readPlace hq).1
  obtain ⟨root, path⟩ := q
  cases root with
  | buffer view => exact hq.elim
  | variable_ scope name =>
    obtain ⟨rfl, hn⟩ := hq
    obtain ⟨t, t', ht, ht', same⟩ := h.tables
    obtain ⟨found, among⟩ := same name hn
    unfold Machine.countAt
    dsimp only
    rw [ht, ht', ScopeArena.findIn?_alone, ScopeArena.findIn?_alone, found]
    cases hf : t.find? name with
    | none => rfl
    | some slot =>
      cases slot with
      | view view => exact (among _ hf).elim
      | value u => exact congrArg (fun r => r >>= _) read

/-- Writing to one of the names does the same on both machines. -/
theorem Agree.writePlace (h : m.Agree names m') (hq : q.Among names) (hv : v.Among names) :
    ∃ outcome m₁ m₁', (Machine.writePlace q v).apply m = (outcome, m₁) ∧
      (Machine.writePlace q v).apply m' = (outcome, m₁') ∧ m₁.Agree names m₁' ∧
      m.Spares names m₁ := by
  obtain ⟨root, path⟩ := q
  cases root with
  | buffer view => exact hq.elim
  | variable_ scope name =>
    obtain ⟨rfl, hn⟩ := hq
    obtain ⟨t, t', ht, ht', same⟩ := h.tables
    obtain ⟨found, among⟩ := same name hn
    have here : m.scopes.findIn? ScopeArena.root name = t.find? name := by
      rw [ht, ScopeArena.findIn?_alone]
    have there : m'.scopes.findIn? ScopeArena.root name = t.find? name := by
      rw [ht', ScopeArena.findIn?_alone, found]
    have bound : ∀ {n : Machine} {u : Table Slot} {slot : Slot}, n.scopes = .alone u →
        (n.bind ScopeArena.root name slot).scopes = .alone (u.insert name slot) := fun hn =>
      congrArg (fun a : ScopeArena Slot => a.insert ScopeArena.root name _) hn
    cases hf : t.find? name with
    | none =>
      exact ⟨_, _, _, writePlace_none (here.trans hf), writePlace_none (there.trans hf), h, .refl m⟩
    | some slot =>
      cases slot with
      | view view => exact (among _ hf).elim
      | value old =>
        refine ⟨_, _, _, writePlace_value (here.trans hf), writePlace_value (there.trans hf), ?_, ?_⟩
        · refine { h with tables := ⟨_, _, bound ht, bound ht', fun n hnames => ?_⟩ }
          by_cases hne : n = name
          · subst hne
            rw [Table.find?_insert_self, Table.find?_insert_self]
            exact ⟨rfl, fun slot hs => by cases hs; exact (among _ hf).assigned path hv⟩
          · rw [Table.find?_insert_of_ne _ _ hne, Table.find?_insert_of_ne _ _ hne]
            exact same n hnames
        · refine ⟨rfl, fun u hu => ?_⟩
          obtain rfl : t = u := ScopeArena.alone_injective (ht.symm.trans hu)
          refine ⟨_, bound ht, Table.names_insert_of_find? hf _, fun n hnot => ?_⟩
          exact Table.find?_insert_of_ne _ _ fun e => hnot (e ▸ hn)

end Machine

/-! ## Computations that keep to some names -/

namespace Eval

/-- On machines that agree on the names, the computation comes to the same, and the machines agree
still. It leaves everything but the names alone. -/
def KeepsTo (names : String → Prop) (P : α → Prop) (x : Eval α) : Prop :=
  ∀ m m', m.Agree names m' →
    (∃ f, x.run m = .error f ∧ x.run m' = .error f) ∨
    ∃ r m₁ m₁', x.run m = .ok (r, m₁) ∧ x.run m' = .ok (r, m₁') ∧ (∀ a, r = .ok a → P a) ∧
      m₁.Agree names m₁' ∧ m.Spares names m₁

variable {P : α → Prop} {Q : β → Prop}

/-- Computations that only read. -/
theorem keepsTo_read {x : Eval α} {r : Machine → Run α} (hx : ∀ m, x.run m = .ok (r m, m))
    (h : ∀ m m', m.Agree names m' → r m' = r m ∧ ∀ a, r m = .ok a → P a) : KeepsTo names P x := by
  intro m m' hm
  obtain ⟨same, sound⟩ := h m m' hm
  exact .inr ⟨r m, m, m', hx m, by rw [hx, same], sound, hm, .refl m⟩

theorem keepsTo_pure {a : α} (h : P a) : KeepsTo names P (pure a) :=
  keepsTo_read (r := fun _ => .ok a) (fun _ => rfl) fun _ _ _ => ⟨rfl, fun _ hb => by cases hb; exact h⟩

theorem keepsTo_throw (e : RunError) : KeepsTo names P (throw e : Eval α) :=
  keepsTo_read (r := fun _ => .error e) (fun _ => rfl) fun _ _ _ => ⟨rfl, nofun⟩

theorem keepsTo_lift {r : Run α} (h : ∀ a, r = .ok a → P a) : KeepsTo names P (liftM r : Eval α) := by
  cases r with
  | ok a => exact keepsTo_pure (h a rfl)
  | error e => exact keepsTo_throw e

theorem keepsTo_bind {x : Eval α} {f : α → Eval β} (hx : KeepsTo names P x)
    (hf : ∀ a, P a → KeepsTo names Q (f a)) : KeepsTo names Q (x >>= f) := by
  intro m m' hm
  rw [ExceptT.run_bind]
  obtain ⟨e, he, he'⟩ | ⟨r, m₁, m₁', hr, hr', hP, hm₁, spares⟩ := hx m m' hm
  · exact .inl ⟨e, Exec.bind_of_error he, Exec.bind_of_error he'⟩
  · rw [Exec.bind_of_ok hr, Exec.bind_of_ok hr']
    cases r with
    | error e => exact .inr ⟨.error e, m₁, m₁', rfl, rfl, nofun, hm₁, spares⟩
    | ok a =>
      obtain ended | ⟨s, m₂, m₂', hs, hs', hQ, hm₂, spares'⟩ := hf a (hP a rfl) m₁ m₁' hm₁
      · exact .inl ended
      · exact .inr ⟨s, m₂, m₂', hs, hs', hQ, hm₂, spares.trans spares'⟩

theorem keepsTo_located (line : Nat) {x : Eval α} (h : KeepsTo names P x) :
    KeepsTo names P (located line x) := by
  intro m m' hm
  rw [run_located]
  obtain ⟨e, he, he'⟩ | ⟨r, m₁, m₁', hr, hr', hP, hm₁, spares⟩ := h m m' hm
  · exact .inl ⟨e, Exec.bind_of_error he, Exec.bind_of_error he'⟩
  · refine .inr ⟨_, m₁, m₁', Exec.bind_of_ok hr, Exec.bind_of_ok hr', fun a ha => hP a ?_, hm₁, spares⟩
    cases r with
    | ok b => exact ha
    | error e => cases ha

/-- What is read off the machine is the same on both. -/
theorem keepsTo_get {f : Machine → Eval α}
    (h : ∀ m m', m.Agree names m' → f m' = f m ∧ KeepsTo names P (f m)) :
    KeepsTo names P (get >>= f) := by
  intro m m' hm
  obtain ⟨same, keeps⟩ := h m m' hm
  rw [get_bind_run, get_bind_run, same]
  exact keeps m m' hm

theorem keepsTo_layout (x : LayoutM α) :
    KeepsTo names (fun _ => True) (ofExec (Exec.layout x)) := by
  intro m m' hm
  have run_layout : ∀ n : Machine, (ofExec (Exec.layout x)).run n = match x.run n.layouts with
      | .error e => .error e
      | .ok r => .ok (.ok r.1, { n with layouts := r.2 }) := by
    intro n
    change (Exec.layout x >>= fun a => pure (Except.ok a)) n = _
    change (Exec.layout x n >>= _) = _
    unfold Exec.layout
    cases x.run n.layouts <;> rfl
  rw [run_layout, run_layout, hm.layouts]
  cases x.run m.layouts with
  | error e => exact .inl ⟨e, rfl, rfl⟩
  | ok r =>
    refine .inr ⟨_, _, _, rfl, rfl, fun _ _ => trivial, hm.withLayouts r.2, rfl, fun t ht => ?_⟩
    exact ⟨t, ht, rfl, fun _ _ => rfl⟩

theorem keepsTo_typeInfo (t : TypeExpr) : KeepsTo names (fun _ => True) (typeInfo t) :=
  keepsTo_layout _

theorem keepsTo_structInfo? (name : String) : KeepsTo names (fun _ => True) (structInfo? name) :=
  keepsTo_layout _

theorem keepsTo_readPlace {q : Place} (hq : q.Among names) :
    KeepsTo names (Value.Among names) (readPlace q) :=
  keepsTo_read (readPlace_run q) fun _ _ hm => hm.readPlace hq

theorem keepsTo_writePlace {q : Place} {v : Value} (hq : q.Among names) (hv : v.Among names) :
    KeepsTo names (fun _ => True) (writePlace q v) := by
  intro m m' hm
  obtain ⟨outcome, m₁, m₁', h, h', hm₁, spares⟩ := hm.writePlace hq hv
  exact .inr ⟨outcome, m₁, m₁', congrArg Except.ok h, congrArg Except.ok h', fun _ _ => trivial, hm₁,
    spares⟩

/-! ## Built-in functions -/

theorem keepsTo_pointer (function : String) {v : Value} (h : v.Among names) :
    KeepsTo names (Place.Among names) (liftM (pointer function v)) := by
  refine keepsTo_lift fun q hq => ?_
  cases v with
  | pointer p =>
    cases hq
    exact Value.among_pointer.1 h
  | _ => cases hq

/-- There is no texture to be had. -/
theorem keepsTo_texture {v : Value} (h : v.Among names) : KeepsTo names (fun _ => False) (texture v) := by
  unfold texture
  split
  · exact (Value.not_among_texture h).elim
  · exact keepsTo_throw _

theorem keepsTo_atomic {update : Value → Value → Run Value} (hu : ∀ ρ, Value.Natural₂ ρ update)
    {q : Place} {v : Value} (hq : q.Among names) (hv : v.Among names) :
    KeepsTo names (Value.Among names) (atomic update q v) := by
  refine keepsTo_bind (keepsTo_readPlace hq) fun old hold => ?_
  refine keepsTo_bind (keepsTo_lift fun new hnew => hold.of_natural₂ hu hv hnew) fun new hnew => ?_
  exact keepsTo_bind (keepsTo_writePlace hq hnew) fun _ _ => keepsTo_pure hold

theorem keepsTo_compareExchange {q : Place} {e v : Value} (hq : q.Among names) (hv : v.Among names) :
    KeepsTo names (Value.Among names) (compareExchange q e v) := by
  have result : ∀ (b : Bool) (kind : ScalarKind) {old : Value}, old.Among names →
      Value.Among names (.struct ("__atomic_compare_exchange_result_" ++ kind.name)
        [("old_value", old), ("exchanged", .bool b)]) := by
    intro b kind old hold
    unfold Value.Among at hold ⊢
    simp [hold]
  refine keepsTo_bind (keepsTo_readPlace hq) fun old hold => ?_
  refine keepsTo_bind (keepsTo_lift (P := fun _ => True) fun _ _ => trivial) fun same _ => ?_
  refine keepsTo_bind (keepsTo_lift (P := fun _ => True) fun _ _ => trivial) fun exchanged _ => ?_
  cases exchanged with
  | true => exact keepsTo_bind (keepsTo_writePlace hq hv) fun _ _ => keepsTo_pure (result _ _ hold)
  | false => exact keepsTo_pure (result _ _ hold)

/-- Functions on memory can be given no texture, and no place but those among the names. -/
theorem keepsTo_callMemory (name : String) {vs : List Value} (h : ∀ v ∈ vs, v.Among names) :
    KeepsTo names (Value.Among names) (callMemory name vs) := by
  have first : ∀ {a : Value} {rest : List Value}, (∀ v ∈ a :: rest, v.Among names) → a.Among names :=
    fun h => h _ List.mem_cons_self
  have second : ∀ {a b : Value} {rest : List Value}, (∀ v ∈ a :: b :: rest, v.Among names) →
      b.Among names := fun h => h _ (List.mem_cons_of_mem _ List.mem_cons_self)
  unfold callMemory
  split
  · refine keepsTo_bind (keepsTo_pointer _ (first h)) fun q hq => ?_
    have counted : KeepsTo names (fun _ => True) (get >>= fun m => liftM (m.countAt q) : Eval Nat) :=
      keepsTo_read (countAt_run q) fun m m' hm => ⟨hm.countAt hq, fun _ _ => trivial⟩
    have given : KeepsTo names (Value.Among names)
        ((get >>= fun m => liftM (m.countAt q)) >>= fun n => pure (.u32 n.toUInt32)) :=
      keepsTo_bind counted fun _ _ => keepsTo_pure (Value.among_of_plain fun _ => Value.rename_u32 _)
    rwa [bind_assoc] at given
  · exact keepsTo_bind (keepsTo_pointer _ (first h)) fun q hq => keepsTo_readPlace hq
  · exact keepsTo_bind (keepsTo_pointer _ (first h)) fun q hq => keepsTo_readPlace hq
  · refine keepsTo_bind (keepsTo_pointer _ (first h)) fun q hq => ?_
    refine keepsTo_bind (keepsTo_writePlace hq (second h)) fun _ _ => ?_
    exact keepsTo_pure (Value.among_of_plain fun _ => Value.rename_void)
  · refine keepsTo_bind (keepsTo_pointer _ (first h)) fun q hq => ?_
    exact keepsTo_compareExchange hq (h _ (by simp))
  · exact keepsTo_bind (keepsTo_texture (first h)) fun _ => False.elim
  · exact keepsTo_bind (keepsTo_texture (first h)) fun _ => False.elim
  · exact keepsTo_bind (keepsTo_texture (first h)) fun _ => False.elim
  · unfold textureStore
    split
    · exact keepsTo_throw _
    · exact keepsTo_bind (keepsTo_texture (first h)) fun _ => False.elim
  · split
    · rename_i update found
      refine keepsTo_bind (keepsTo_pointer _ (first h)) fun q hq => ?_
      exact keepsTo_atomic (natural_atomicUpdate? found) hq (second h)
    · exact keepsTo_throw _
  · exact keepsTo_throw _

theorem keepsTo_callBuiltin (name : String) {vs : List Value} (h : ∀ v ∈ vs, v.Among names) :
    KeepsTo names (Value.Among names) (callBuiltin name vs) := by
  refine keepsTo_bind (keepsTo_lift (P := fun _ => True) fun _ _ => trivial) fun _ _ => ?_
  cases found : Library.call? name vs with
  | some r => exact keepsTo_lift fun v hv => Value.among_call? h found hv
  | none => exact keepsTo_callMemory name h

/-! ## Expressions -/

section

variable {s : Shader} {call : Caller}

/-- A call by name of what is no declared function. -/
theorem keepsTo_callNamed {name : String} (hf : s.function? name = none) {vs : List Value}
    (h : ∀ v ∈ vs, v.Among names) :
    KeepsTo names (Value.Among names) (callNamed s call name vs) := by
  unfold callNamed
  rw [hf]
  refine keepsTo_bind (keepsTo_structInfo? name) fun found _ => ?_
  cases found with
  | some t => exact keepsTo_lift fun v hv => Value.among_construct h hv
  | none => exact keepsTo_callBuiltin name h

theorem keepsTo_integer (v : Value) : KeepsTo names (fun _ => True) (liftM v.integer) :=
  keepsTo_lift fun _ _ => trivial

theorem keepsTo_dereference {v : Value} (h : v.Among names) :
    KeepsTo names (Place.Among names) (liftM (dereference v)) := by
  refine keepsTo_lift fun q hq => ?_
  cases v with
  | pointer p =>
    cases hq
    exact Value.among_pointer.1 h
  | _ => cases hq

theorem keepsTo_castKind (t : TypeExpr) : KeepsTo names (fun _ => True) (castKind t) := by
  refine keepsTo_bind (keepsTo_typeInfo t) fun info _ => ?_
  cases info.scalarKind? with
  | some kind => exact keepsTo_pure trivial
  | none => exact keepsTo_throw _

theorem keepsTo_part {v : Value} (h : v.Among names) (a : Access) :
    KeepsTo names (Value.Among names) (liftM (v.part a)) :=
  keepsTo_lift fun _ hu => h.of_natural (f := fun v => v.part a) (fun _ => Value.natural_part a) hu

mutual

theorem keepsTo_expr : ∀ e : Expr, (∀ x ∈ e.mentions, x.Within s names) →
    KeepsTo names (Value.Among names) (expr s call ScopeArena.root e)
  | .literal _ value, _ => by
    rw [expr]
    exact keepsTo_pure (Value.among_of_plain fun _ => Value.rename_ofLiteral value)
  | .var k name, h => by
    rw [expr]
    refine keepsTo_located k.line ?_
    exact keepsTo_read (readName_run _ name) fun _ _ hm => hm.nameValue (h _ List.mem_cons_self)
  | .binary k op lhs rhs, h => by
    rw [expr]
    obtain ⟨hl, hr⟩ := List.forall_mem_append.1 h
    refine keepsTo_located k.line (keepsTo_bind (keepsTo_expr lhs hl) fun l hleft => ?_)
    split
    · exact keepsTo_pure (Value.among_of_plain fun _ => Value.rename_bool _)
    · exact keepsTo_pure (Value.among_of_plain fun _ => Value.rename_bool _)
    · refine keepsTo_bind (keepsTo_expr rhs hr) fun r hright => ?_
      exact keepsTo_lift fun v hv => hleft.of_natural₂ (fun _ => Value.natural_binary op) hright hv
  | .unary k op operand, h => by
    cases op with
    | addressOf =>
      rw [expr]
      refine keepsTo_located k.line (keepsTo_bind (keepsTo_place operand h) fun q hq => ?_)
      exact keepsTo_pure (Value.among_pointer.2 hq)
    | deref =>
      rw [expr]
      refine keepsTo_located k.line (keepsTo_bind (keepsTo_expr operand h) fun v hv => ?_)
      exact keepsTo_bind (keepsTo_dereference hv) fun q hq => keepsTo_readPlace hq
    | _ =>
      rw [expr]
      · refine keepsTo_located k.line (keepsTo_bind (keepsTo_expr operand h) fun v hv => ?_)
        exact keepsTo_lift fun u hu => hv.of_natural (fun _ => Value.natural_unary _) hu
      all_goals nofun
  | .call k name args, h => by
    rw [expr]
    obtain ⟨hname, hargs⟩ := List.forall_mem_cons.1 h
    refine keepsTo_located k.line (keepsTo_get fun m m' hm => ⟨by rw [hm.callResults], ?_⟩)
    split
    · rename_i v found
      obtain ⟨before, after, split, -⟩ := List.lookup_eq_some_iff.1 found
      exact keepsTo_pure (hm.pending (k.id, v) (split ▸ List.mem_append_right _ List.mem_cons_self))
    · exact keepsTo_bind (keepsTo_exprs args hargs) fun vs hvs => keepsTo_callNamed hname hvs
  | .construct k type args, h => by
    rw [expr]
    refine keepsTo_located k.line ?_
    refine keepsTo_bind (keepsTo_exprs args (List.forall_mem_cons.1 h).2) fun vs hvs => ?_
    refine keepsTo_bind (keepsTo_typeInfo type) fun t _ => ?_
    exact keepsTo_lift fun v hv => Value.among_construct hvs hv
  | .bitcast k type value, h => by
    rw [expr]
    refine keepsTo_located k.line (keepsTo_bind (keepsTo_castKind type) fun kind _ => ?_)
    refine keepsTo_bind (keepsTo_expr value (List.forall_mem_cons.1 h).2) fun v hv => ?_
    exact keepsTo_lift fun u hu => hv.of_natural (fun _ => Value.natural_bitcast kind) hu
  | .index k base index, h => by
    rw [expr]
    obtain ⟨hbase, hindex⟩ := List.forall_mem_append.1 h
    refine keepsTo_located k.line ?_
    split
    · refine keepsTo_bind (keepsTo_place base hbase) fun q hq => ?_
      refine keepsTo_bind (keepsTo_expr index hindex) fun v _ => ?_
      exact keepsTo_bind (keepsTo_integer v) fun i _ => keepsTo_readPlace (hq.below _)
    · refine keepsTo_bind (keepsTo_expr base hbase) fun v hv => ?_
      refine keepsTo_bind (keepsTo_expr index hindex) fun u _ => ?_
      exact keepsTo_bind (keepsTo_integer u) fun i _ => keepsTo_part hv _
  | .member k base name, h => by
    rw [expr]
    refine keepsTo_located k.line ?_
    split
    · exact keepsTo_bind (keepsTo_place base h) fun q hq => keepsTo_readPlace (hq.below _)
    · exact keepsTo_bind (keepsTo_expr base h) fun v hv => keepsTo_part hv _
  | .group k e, h => by
    rw [expr]
    exact keepsTo_located k.line (keepsTo_expr e h)

theorem keepsTo_exprs : ∀ es : List Expr, (∀ x ∈ Expr.listMentions es, x.Within s names) →
    KeepsTo names (fun vs => ∀ v ∈ vs, v.Among names) (exprs s call ScopeArena.root es)
  | [], _ => by
    rw [exprs]
    exact keepsTo_pure nofun
  | e :: rest, h => by
    rw [exprs]
    obtain ⟨he, hrest⟩ := List.forall_mem_append.1 h
    refine keepsTo_bind (keepsTo_expr e he) fun v hv => ?_
    refine keepsTo_bind (keepsTo_exprs rest hrest) fun vs hvs => ?_
    exact keepsTo_pure (List.forall_mem_cons.2 ⟨hv, hvs⟩)

theorem keepsTo_place : ∀ e : Expr, (∀ x ∈ e.mentions, x.Within s names) →
    KeepsTo names (Place.Among names) (place s call ScopeArena.root e)
  | .var k name, h => by
    rw [place]
    exact keepsTo_read (placeOfName_run _ name k.line) fun _ _ hm =>
      hm.namePlace (h _ List.mem_cons_self) k.line
  | .index _ base index, h => by
    rw [place]
    obtain ⟨hbase, hindex⟩ := List.forall_mem_append.1 h
    refine keepsTo_bind (keepsTo_place base hbase) fun q hq => ?_
    refine keepsTo_bind (keepsTo_expr index hindex) fun v _ => ?_
    exact keepsTo_bind (keepsTo_integer v) fun i _ => keepsTo_pure (hq.below _)
  | .member _ base name, h => by
    rw [place]
    exact keepsTo_bind (keepsTo_place base h) fun q hq => keepsTo_pure (hq.below _)
  | .group _ e, h => by
    rw [place]
    exact keepsTo_place e h
  | .unary _ op operand, h => by
    cases op with
    | deref =>
      rw [place]
      exact keepsTo_bind (keepsTo_expr operand h) fun v hv => keepsTo_dereference hv
    | _ => exact keepsTo_throw _
  | .literal .., _ => keepsTo_throw _
  | .binary .., _ => keepsTo_throw _
  | .call .., _ => keepsTo_throw _
  | .construct .., _ => keepsTo_throw _
  | .bitcast .., _ => keepsTo_throw _

end

/-- The value that a variable of the module starts with. -/
theorem keepsTo_initialValue {v : VarDecl} (h : ∀ e ∈ v.value, ∀ x ∈ e.mentions, x.Within s names) :
    KeepsTo names (Value.Among names) (initialValue s call ScopeArena.root v) := by
  unfold initialValue
  split
  · rename_i type init _ found
    refine keepsTo_bind (keepsTo_typeInfo type) fun t _ => ?_
    refine keepsTo_bind (keepsTo_expr init (h init found)) fun u hu => ?_
    exact keepsTo_lift fun w hw => hu.of_natural (f := fun u => u.coerceTo t)
      (fun _ => Value.natural_coerceTo t) hw
  · rename_i init _ found
    exact keepsTo_expr init (h init found)
  · rename_i type _ _
    refine keepsTo_bind (keepsTo_typeInfo type) fun t _ => ?_
    exact keepsTo_pure (Value.among_of_plain fun _ => Value.rename_zeroOf t)
  · exact keepsTo_throw _

end

end Eval

end Wgsl
