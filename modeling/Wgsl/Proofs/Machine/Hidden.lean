import Wgsl.Proofs.Machine.Statements
import Wgsl.Proofs.Memory.Carried
import Wgsl.Proofs.Scope.Lookup

/-! # Runs that differ in what is hidden

Two runs over different resources. Some names of the module are hidden: what they are bound to may
differ between the runs, and so may the buffers and textures behind them. All other buffers and
textures have counterparts, perhaps under other numbers.

* `Bridge`: the hidden names and the counterparts.
* `Bridge.correspondence`: what the two runs have in common.
* `Bridge.lawful`: every primitive step that stays clear of the hidden names keeps it.
-/

namespace Wgsl
set_option autoImplicit false

open Correspondence
open Value (rename)

/-- Which names are hidden, and the numbers that buffers and textures have in the second run. -/
structure Bridge where
  hidden : List String
  buffer? : BufferId → Option BufferId
  texture? : TextureId → Option TextureId
  buffer_inj : ∀ {i k j}, buffer? i = some j → buffer? k = some j → i = k
  texture_inj : ∀ {i k j}, texture? i = some j → texture? k = some j → i = k

/-! ## Names bound below the root -/

/-- The name is bound in the scope or around it, below the root. -/
inductive ScopeArena.BoundInside {α : Type} (a : ScopeArena α) (name : String) : ScopeId → Prop
  | here {id : ScopeId} : id ≠ root → (a.findIn? id name).isSome → BoundInside a name id
  | outer {id parent : ScopeId} : a.parent? id = some parent → BoundInside a name parent →
    BoundInside a name id

namespace ScopeArena

variable {α : Type} {a b : ScopeArena α} {name : String} {id : ScopeId}

/-- A name stays bound where nothing is taken away. -/
theorem BoundInside.mono (hn : a.Nested) (h : a.BoundInside name id)
    (hf : ∀ k ≤ id, (a.findIn? k name).isSome → (b.findIn? k name).isSome)
    (hp : ∀ k ≤ id, ∀ parent, a.parent? k = some parent → b.parent? k = some parent) :
    b.BoundInside name id := by
  induction h with
  | here hid hfound => exact .here hid (hf _ (Nat.le_refl _) hfound)
  | @outer id parent hpar _ ih =>
    have hlt : parent < id := hn id parent hpar
    refine .outer (hp id (Nat.le_refl _) parent hpar) (ih (fun k hk => ?_) fun k hk => ?_)
    · exact hf k (Nat.le_trans hk (Nat.le_of_lt hlt))
    · exact hp k (Nat.le_trans hk (Nat.le_of_lt hlt))

theorem BoundInside.insert (hn : a.Nested) (h : a.BoundInside name id) {scope : ScopeId}
    {other : String} {v : α} : (a.insert scope other v).BoundInside name id := by
  refine h.mono hn (fun k _ hk => ?_) fun k _ parent hk => by rwa [parent?_insert]
  by_cases hs : k ≠ scope ∨ name ≠ other
  · rwa [findIn?_insert_of_ne hs]
  · rw [not_or, not_not, not_not] at hs
    obtain ⟨rfl, rfl⟩ := hs
    obtain ⟨u, hu⟩ := Option.isSome_iff_exists.1 hk
    rw [findIn?_insert_self (lt_depth_of_findIn? hu)]
    rfl

end ScopeArena

namespace Bridge

variable (b : Bridge)

/-! ## Names -/

/-- The names in the second run. -/
def across : Renaming where
  place p :=
    match p.root with
    | .buffer view => { p with root := .buffer (view.moved ((b.buffer? view.buffer).getD view.buffer)) }
    | .variable_ .. => p
  texture i := (b.texture? i).getD i

/-- The place is not hidden. -/
def Open (p : Place) : Prop :=
  match p.root with
  | .buffer view => (b.buffer? view.buffer).isSome
  | .variable_ scope name => ¬(scope = ScopeArena.root ∧ name ∈ b.hidden)

instance (p : Place) : Decidable (b.Open p) := by
  unfold Open
  split <;> infer_instance

/-- Leaves the places and textures that are not hidden. -/
def within : Renaming where
  place p := if b.Open p then p else p.below (.index 0)
  texture i := if (b.texture? i).isSome then i else i + 1

theorem within_place_iff {p : Place} : b.within.place p = p ↔ b.Open p := by
  unfold within
  dsimp only
  split
  · simp_all
  · rename_i h
    refine ⟨fun e => ?_, fun e => absurd e h⟩
    have e' := congrArg (fun q => q.path.length) e
    simp [Place.below] at e'

theorem within_texture_iff {i : TextureId} : b.within.texture i = i ↔ ∃ j, b.texture? i = some j := by
  unfold within
  dsimp only
  rw [← Option.isSome_iff_exists]
  split
  · simp_all
  · rename_i h
    exact ⟨fun e => absurd e (Nat.succ_ne_self i), fun e => absurd e h⟩

/-- Values that stand for each other. -/
def values (v v' : Value) : Prop := v' = v.rename b.across ∧ v.rename b.within = v

/-- Places that stand for each other. -/
def places (q q' : Place) : Prop := q' = b.across.place q ∧ b.Open q

/-- What a name is bound to in two runs. -/
def slots : Slot → Slot → Prop
  | .value v, s => ∃ v', s = .value v' ∧ b.values v v'
  | .view view, s => ∃ j, s = .view (view.moved j) ∧ b.buffer? view.buffer = some j

/-! ## Machines -/

/-- A scope that is open and the names known to be bound in it or around it, below the root. -/
structure Frame where
  scope : ScopeId
  locals : String → Prop

/-- What is known about two runs at some point: the scope they are in and those around it, the
variables of the module, and the memories and bindings they started from. -/
structure Situation where
  here : Frame
  outer : List Frame
  /-- The scope is not the root. -/
  inside : Prop
  vars : List VarDecl
  start : Memory
  start' : Memory
  bound : List Bound
  bound' : List Bound

/-- The situation in a fresh scope. -/
def Situation.entered (w : Situation) (scope : ScopeId) (locals : String → Prop) : Situation :=
  { w with here := ⟨scope, locals⟩, outer := w.here :: w.outer, inside := True }

/-- Scopes that bind the same names, apart from hidden ones in the root, to slots that stand for
each other. -/
structure Arenas (a a' : ScopeArena Slot) : Prop where
  nested : a.Nested
  depth : a'.depth = a.depth
  parents : ∀ id, a'.parent? id = a.parent? id
  found : ∀ id name, ¬(id = ScopeArena.root ∧ name ∈ b.hidden) →
    Option.Rel b.slots (a.findIn? id name) (a'.findIn? id name)

/-- The machines of two runs. -/
structure Related (w : Situation) (m m' : Machine) : Prop where
  layouts : m'.layouts = m.layouts
  diagnostics : m'.diagnostics = m.diagnostics
  callResults : m.callResults = []
  callResults' : m'.callResults = []
  moduleVars : m.moduleVars = w.vars
  moduleVars' : m'.moduleVars = w.vars
  callDepth : m'.callDepth = m.callDepth
  discarded : m'.discarded = m.discarded
  bound : m.bound = w.bound
  bound' : m'.bound = w.bound'
  memory : Memory.Carried b.buffer? b.texture? w.start w.start' m.memory m'.memory
  arenas : b.Arenas m.scopes m'.scopes
  frames : ∀ f ∈ w.here :: w.outer, f.scope < m.scopes.depth ∧
    ∀ name, f.locals name → m.scopes.BoundInside name f.scope
  order : ∀ f ∈ w.outer, f.scope < w.here.scope
  inside : w.inside → w.here.scope ≠ ScopeArena.root

/-- What two runs have in common that call only the given functions. -/
def correspondence (calls : String → Prop) : Correspondence where
  World := Situation
  lax := False
  across := b.across
  within := b.within
  rel := b.Related
  places _ := b.places
  scope w := w.here.scope
  scope' w := w.here.scope
  declare w name :=
    { w with here := { w.here with locals := fun n => w.here.locals n ∨ (w.inside ∧ n = name) } }
  sees w name := name ∉ b.hidden ∨ w.here.locals name
  free name := name ∉ b.hidden
  calls := calls
  address := True
  declares _ _ := True
  inner w := w.inside

section

variable {b} {a a' : ScopeArena Slot}

theorem rel_some {α β : Type} {R : α → β → Prop} {s : α} {o : Option β}
    (h : Option.Rel R (some s) o) : ∃ s', o = some s' ∧ R s s' := by
  cases h with
  | some hs => exact ⟨_, rfl, hs⟩

theorem rel_none {α β : Type} {R : α → β → Prop} {o : Option β} (h : Option.Rel R none o) :
    o = none := by
  cases h
  rfl

theorem Arenas.nested' (h : b.Arenas a a') : a'.Nested := by
  intro id parent hp
  rw [h.parents] at hp
  exact h.nested id parent hp

/-- A name that is not hidden, or bound below the root, is found in the same scope. -/
theorem Arenas.lookup (h : b.Arenas a a') {name : String} (id : Nat)
    (hname : name ∉ b.hidden ∨ a.BoundInside name id) :
    (a.lookup id name = none ∧ a'.lookup id name = none) ∨
      ∃ owner s s', a.lookup id name = some (owner, s) ∧ a'.lookup id name = some (owner, s') ∧
        b.slots s s' ∧ ¬(owner = ScopeArena.root ∧ name ∈ b.hidden) := by
  induction id using Nat.strong_induction_on with
  | _ id ih =>
    have hid : ¬(id = ScopeArena.root ∧ name ∈ b.hidden) := by
      rintro ⟨hroot, hhidden⟩
      obtain hn | hn := hname
      · exact hn hhidden
      · cases hn with
        | here hne => exact hne hroot
        | outer hp =>
          have hlt := h.nested _ _ hp
          rw [hroot] at hlt
          exact Nat.not_lt_zero _ hlt
    have hrel := h.found id name hid
    cases hf : a.findIn? id name with
    | some s =>
      rw [hf] at hrel
      obtain ⟨s', hs', hss⟩ := rel_some hrel
      exact Or.inr ⟨id, s, s', ScopeArena.lookup_of_findIn? hf, ScopeArena.lookup_of_findIn? hs', hss, hid⟩
    | none =>
      rw [hf] at hrel
      have hf' := rel_none hrel
      rw [h.nested.lookup_of_none hf, h.nested'.lookup_of_none hf', h.parents]
      cases hp : a.parent? id with
      | none => exact Or.inl ⟨rfl, rfl⟩
      | some parent =>
        refine ih parent (h.nested id parent hp) (hname.imp (fun hn => hn) fun hn => ?_)
        cases hn with
        | here _ hsome =>
          rw [hf] at hsome
          cases hsome
        | outer hp₁ hn =>
          rw [hp] at hp₁
          cases hp₁
          exact hn

theorem Arenas.insert (h : b.Arenas a a') {scope : ScopeId} {name : String} {s s' : Slot}
    (hs : b.slots s s') : b.Arenas (a.insert scope name s) (a'.insert scope name s') where
  nested := h.nested.insert
  depth := by rw [ScopeArena.depth_insert, ScopeArena.depth_insert, h.depth]
  parents id := by rw [ScopeArena.parent?_insert, ScopeArena.parent?_insert, h.parents]
  found id other hid := by
    by_cases hne : id ≠ scope ∨ other ≠ name
    · rw [ScopeArena.findIn?_insert_of_ne hne, ScopeArena.findIn?_insert_of_ne hne]
      exact h.found id other hid
    · rw [not_or, not_not, not_not] at hne
      obtain ⟨rfl, rfl⟩ := hne
      by_cases hlt : id < a.depth
      · rw [ScopeArena.findIn?_insert_self hlt, ScopeArena.findIn?_insert_self (by rwa [h.depth])]
        exact .some hs
      · have hle := Nat.le_of_not_lt hlt
        rw [ScopeArena.findIn?_of_depth_le (by rwa [ScopeArena.depth_insert]),
          ScopeArena.findIn?_of_depth_le (by rwa [ScopeArena.depth_insert, h.depth])]
        exact .none

theorem Arenas.push (h : b.Arenas a a') {parent : ScopeId} (hp : parent < a.depth) :
    b.Arenas (a.push parent).1 (a'.push parent).1 where
  nested := h.nested.push hp
  depth := by rw [ScopeArena.depth_push, ScopeArena.depth_push, h.depth]
  parents id := by
    by_cases hid : id = a.depth
    · subst hid
      rw [ScopeArena.parent?_push_depth, ← h.depth, ScopeArena.parent?_push_depth]
    · rw [ScopeArena.parent?_push_of_ne hid, ScopeArena.parent?_push_of_ne (by rwa [h.depth]),
        h.parents]
  found id name hid := by
    rw [ScopeArena.findIn?_push, ScopeArena.findIn?_push]
    exact h.found id name hid

theorem Arenas.pop (h : b.Arenas a a') {scope : ScopeId} (h₀ : 0 < scope) (hs : scope < a.depth) :
    b.Arenas (a.pop scope) (a'.pop scope) := by
  have hs' : scope < a'.depth := by rwa [h.depth]
  refine ⟨h.nested.pop, ?_, fun id => ?_, fun id name hid => ?_⟩
  · rw [ScopeArena.depth_pop h₀ hs, ScopeArena.depth_pop h₀ hs']
  · by_cases hlt : id < scope
    · rw [ScopeArena.parent?_pop hlt, ScopeArena.parent?_pop hlt, h.parents]
    · have hle := Nat.le_of_not_lt hlt
      rw [ScopeArena.parent?_of_depth_le (by rwa [ScopeArena.depth_pop h₀ hs']),
        ScopeArena.parent?_of_depth_le (by rwa [ScopeArena.depth_pop h₀ hs])]
  · by_cases hlt : id < scope
    · rw [ScopeArena.findIn?_pop hlt, ScopeArena.findIn?_pop hlt]
      exact h.found id name hid
    · have hle := Nat.le_of_not_lt hlt
      rw [ScopeArena.findIn?_of_depth_le (by rwa [ScopeArena.depth_pop h₀ hs]),
        ScopeArena.findIn?_of_depth_le (by rwa [ScopeArena.depth_pop h₀ hs'])]
      exact .none

variable {w : Situation} {m m' : Machine}

/-- A variable is bound, or bound again, in both machines. -/
theorem Related.bind (h : b.Related w m m') {scope : ScopeId} {name : String} {s s' : Slot}
    (hs : b.slots s s') : b.Related w (m.bind scope name s) (m'.bind scope name s') :=
  { h with
    arenas := h.arenas.insert hs
    frames := fun f hf => by
      obtain ⟨hlt, hlocals⟩ := h.frames f hf
      refine ⟨?_, fun n hn => (hlocals n hn).insert h.arenas.nested⟩
      exact Nat.lt_of_lt_of_eq hlt ScopeArena.depth_insert.symm }

theorem Related.withMemory (h : b.Related w m m') {memory memory' : Memory}
    (hm : Memory.Carried b.buffer? b.texture? w.start w.start' memory memory') :
    b.Related w { m with memory } { m' with memory := memory' } :=
  { h with memory := hm }

/-- Fresh scopes below a scope that is open. -/
theorem Related.push (h : b.Related w m m') {parent : ScopeId} (hp : parent < m.scopes.depth)
    {locals : String → Prop} (hl : ∀ n, locals n → m.scopes.BoundInside n parent) :
    b.Related (w.entered m.scopes.depth locals) (m.pushed parent) (m'.pushed parent) := by
  have hhere : w.here.scope < m.scopes.depth := (h.frames w.here List.mem_cons_self).1
  have grown : ∀ {n k}, k < m.scopes.depth → m.scopes.BoundInside n k →
      (m.scopes.push parent).1.BoundInside n k := by
    intro n k hk hb
    refine hb.mono h.arenas.nested (fun i _ hi => by rwa [ScopeArena.findIn?_push]) fun i hi q hq => ?_
    have hne : i ≠ m.scopes.depth := Nat.ne_of_lt (Nat.lt_of_le_of_lt hi hk)
    rwa [ScopeArena.parent?_push_of_ne hne]
  refine { h with arenas := h.arenas.push hp, frames := ?_, order := ?_, inside := ?_ }
  · intro f hf
    obtain rfl | hf := List.mem_cons.1 hf
    · refine ⟨?_, fun n hn => ?_⟩
      · exact Nat.lt_of_lt_of_eq (Nat.lt_succ_self _) ScopeArena.depth_push.symm
      · exact .outer ScopeArena.parent?_push_depth (grown hp (hl n hn))
    · obtain ⟨hlt, hlocals⟩ := h.frames f hf
      refine ⟨?_, fun n hn => grown hlt (hlocals n hn)⟩
      exact Nat.lt_of_lt_of_eq (Nat.lt_succ_of_lt hlt) ScopeArena.depth_push.symm
  · intro f hf
    obtain rfl | hf := List.mem_cons.1 hf
    · exact hhere
    · exact Nat.lt_trans (h.order f hf) hhere
  · intro _ e
    have hzero : m.scopes.depth = 0 := e
    rw [hzero] at hhere
    exact Nat.not_lt_zero _ hhere

/-- The scope that was opened last is closed. -/
theorem Related.pop {scope : ScopeId} {locals : String → Prop}
    (h : b.Related (w.entered scope locals) m m') (horder : ∀ f ∈ w.outer, f.scope < w.here.scope)
    (hinside : w.inside → w.here.scope ≠ ScopeArena.root) :
    b.Related w (m.popped scope) (m'.popped scope) := by
  have hlast : scope < m.scopes.depth := (h.frames _ List.mem_cons_self).1
  have hbelow : ∀ f ∈ w.here :: w.outer, f.scope < scope := h.order
  have hpos : 0 < scope := Nat.lt_of_le_of_lt (Nat.zero_le _) (hbelow w.here List.mem_cons_self)
  refine { h with arenas := h.arenas.pop hpos hlast, frames := ?_, order := horder, inside := hinside }
  intro f hf
  obtain ⟨-, hlocals⟩ := h.frames f (List.mem_cons_of_mem _ hf)
  have hlt := hbelow f hf
  refine ⟨?_, fun n hn => (hlocals n hn).mono h.arenas.nested (fun k hk hs => ?_) fun k hk q hq => ?_⟩
  · exact Nat.lt_of_lt_of_eq hlt (ScopeArena.depth_pop hpos hlast).symm
  · exact (ScopeArena.findIn?_pop (Nat.lt_of_le_of_lt hk hlt)).symm ▸ hs
  · exact (ScopeArena.parent?_pop (Nat.lt_of_le_of_lt hk hlt)).trans hq

/-! ## Reading -/

theorem values_of_plain {r : Run Value} (h : ∀ ρ, rename ρ <$> r = r) : Run.Alike b.values r r := by
  cases r with
  | error e => rfl
  | ok v => exact ⟨v, rfl, (Except.ok.inj (h _)).symm, Except.ok.inj (h _)⟩

theorem Related.slotValue (h : b.Related w m m') {s s' : Slot} (hs : b.slots s s') :
    Run.Alike b.values (m.slotValue s) (m'.slotValue s') := by
  cases s with
  | value v =>
    obtain ⟨v', rfl, hv⟩ := hs
    exact ⟨v', rfl, hv⟩
  | view view =>
    obtain ⟨j, rfl, hj⟩ := hs
    unfold Machine.slotValue
    dsimp only
    rw [Memory.load_moved (h.memory.buffers.same _ _ hj) rfl]
    exact values_of_plain fun _ => Memory.plain_loadAt m.memory view.buffer view.type view.offset

theorem places_ofView {view : BufferView} {j : BufferId} (hj : b.buffer? view.buffer = some j) :
    b.places (.ofView view) (.ofView (view.moved j)) := by
  refine ⟨?_, ?_⟩
  · simp [across, Place.ofView, hj]
  · simp [Open, Place.ofView, hj]

theorem Related.place {s s' : Slot} (hs : b.slots s s') {owner : ScopeId} {name : String}
    (hopen : ¬(owner = ScopeArena.root ∧ name ∈ b.hidden)) :
    b.places (s.place owner name) (s'.place owner name) := by
  have named : b.places (.ofVariable owner name) (.ofVariable owner name) := ⟨rfl, hopen⟩
  cases s with
  | view view =>
    obtain ⟨j, rfl, hj⟩ := hs
    exact places_ofView hj
  | value v =>
    obtain ⟨v', rfl, rfl, hv⟩ := hs
    cases v with
    | pointer p =>
      rw [Value.rename_pointer] at hv ⊢
      exact ⟨rfl, (b.within_place_iff).1 (Value.pointer.inj hv)⟩
    | _ =>
      simp only [Value.rename_void, Value.rename_bool, Value.rename_i32, Value.rename_u32,
        Value.rename_f32, Value.rename_vector, Value.rename_matrix, Value.rename_array,
        Value.rename_struct, Value.rename_texture, Value.rename_sampler]
      exact named

theorem Related.readPlace (h : b.Related w m m') {q q' : Place} (hq : b.places q q') :
    Run.Alike b.values (m.readPlace q) (m'.readPlace q') := by
  obtain ⟨rfl, hopen⟩ := hq
  obtain ⟨root, path⟩ := q
  cases root with
  | buffer view =>
    obtain ⟨j, hj⟩ := Option.isSome_iff_exists.1 hopen
    have same := Memory.readPath_moved (h.memory.buffers.same _ _ hj) (v := view) rfl path
    simp only [across, hj, Option.getD_some, Machine.readPlace]
    rw [same]
    exact values_of_plain fun _ => Memory.plain_readPath m.memory view path
  | variable_ scope name =>
    have found := h.arenas.found scope name hopen
    simp only [across, Machine.readPlace]
    cases hf : m.scopes.findIn? scope name with
    | none =>
      rw [hf] at found
      rw [rel_none found]
      rfl
    | some s =>
      rw [hf] at found
      obtain ⟨s', hs', hs⟩ := rel_some found
      rw [hs']
      cases s with
      | value v =>
        obtain ⟨v', rfl, hv⟩ := hs
        exact alike_of_natural (C := b.correspondence fun _ => True) (f := fun v => v.atPath path)
          (fun _ => Value.natural_atPath path) hv
      | view view =>
        obtain ⟨j, rfl, hj⟩ := hs
        dsimp only
        rw [Memory.readPath_moved (h.memory.buffers.same _ _ hj) rfl path]
        exact values_of_plain fun _ => Memory.plain_readPath m.memory view path

theorem Related.countAt (h : b.Related w m m') {q q' : Place} (hq : b.places q q') :
    m'.countAt q' = m.countAt q := by
  have read := h.readPlace hq
  obtain ⟨rfl, hopen⟩ := hq
  obtain ⟨root, path⟩ := q
  cases root with
  | buffer view =>
    obtain ⟨j, hj⟩ := Option.isSome_iff_exists.1 hopen
    have same := Memory.countAt_moved (h.memory.buffers.same _ _ hj) (v := view) rfl path
    simp only [across, hj, Option.getD_some, Machine.countAt]
    exact same
  | variable_ scope name =>
    have found := h.arenas.found scope name hopen
    simp only [across, Machine.countAt] at read ⊢
    cases hf : m.scopes.findIn? scope name with
    | none =>
      rw [hf] at found
      rw [rel_none found]
    | some s =>
      rw [hf] at found
      obtain ⟨s', hs', hs⟩ := rel_some found
      rw [hs']
      cases s with
      | view view =>
        obtain ⟨j, rfl, hj⟩ := hs
        exact Memory.countAt_moved (h.memory.buffers.same _ _ hj) rfl path
      | value v =>
        obtain ⟨v', rfl, -⟩ := hs
        dsimp only
        cases hr : m.readPlace ⟨.variable_ scope name, path⟩ with
        | error e =>
          rw [hr] at read
          rw [show m'.readPlace ⟨.variable_ scope name, path⟩ = .error e from read]
        | ok u =>
          rw [hr] at read
          obtain ⟨u', hu', hu, -⟩ := read
          rw [hu', hu]
          have named : ∀ {t t' : String}, t' = t →
              (Except.error (.mismatch ("arrayLength of " ++ t')) : Run Nat) =
                .error (.mismatch ("arrayLength of " ++ t)) := fun e => by rw [e]
          cases u with
          | array items =>
            rw [Value.rename_array]
            exact congrArg Except.ok (List.length_map _)
          | vector items =>
            rw [Value.rename_vector]
            exact named (Value.typeName_vector_map items)
          | struct n fields =>
            rw [Value.rename_struct]
            exact named rfl
          | pointer p =>
            rw [Value.rename_pointer]
            exact named rfl
          | texture i =>
            rw [Value.rename_texture]
            exact named rfl
          | _ =>
            simp only [Value.rename_void, Value.rename_bool, Value.rename_i32, Value.rename_u32,
              Value.rename_f32, Value.rename_matrix, Value.rename_sampler]

/-! ## Writing -/

/-- A change of memory that is alike in both runs. -/
theorem Related.onMemory (h : b.Related w m m') {α : Type} {c c' : Change Memory α}
    (hc : Change.Parallel (Memory.Carried b.buffer? b.texture? w.start w.start') c c') :
    ((Machine.onMemory c').apply m').1 = ((Machine.onMemory c).apply m).1 ∧
      b.Related w ((Machine.onMemory c).apply m).2 ((Machine.onMemory c').apply m').2 := by
  obtain ⟨same, hm⟩ := hc m.memory m'.memory h.memory
  exact ⟨same, h.withMemory hm⟩

theorem Related.writePath (h : b.Related w m m') {view : BufferView} {j : BufferId}
    (hj : b.buffer? view.buffer = some j) (path : List Access) {v v' : Value} (hv : b.values v v') :
    ((Machine.onMemory (Memory.writePath (view.moved j) path v')).apply m').1 =
        ((Machine.onMemory (Memory.writePath view path v)).apply m).1 ∧
      b.Related w ((Machine.onMemory (Memory.writePath view path v)).apply m).2
        ((Machine.onMemory (Memory.writePath (view.moved j) path v')).apply m').2 := by
  obtain ⟨rfl, -⟩ := hv
  rw [Memory.writePath_rename]
  exact h.onMemory (Memory.parallel_writePath b.buffer_inj hj rfl path v)

theorem values_assigned (path : List Access) {old old' new new' : Value} (hold : b.values old old')
    (hnew : b.values new new') :
    ((Value.assignPath path new').apply old').1 = ((Value.assignPath path new).apply old).1 ∧
      b.values ((Value.assignPath path new).apply old).2
        ((Value.assignPath path new').apply old').2 := by
  obtain ⟨rfl, hold⟩ := hold
  obtain ⟨rfl, hnew⟩ := hnew
  have across := Value.alike_assignPath (ρ := b.across) path new old
  have within := Value.alike_assignPath (ρ := b.within) path new old
  rw [hold, hnew] at within
  rw [across]
  refine ⟨rfl, rfl, ?_⟩
  exact (congrArg Prod.snd within).symm

theorem Related.writePlace (h : b.Related w m m') {q q' : Place} {v v' : Value} (hq : b.places q q')
    (hv : b.values v v') :
    ((Machine.writePlace q' v').apply m').1 = ((Machine.writePlace q v).apply m).1 ∧
      b.Related w ((Machine.writePlace q v).apply m).2 ((Machine.writePlace q' v').apply m').2 := by
  obtain ⟨rfl, hopen⟩ := hq
  obtain ⟨root, path⟩ := q
  cases root with
  | buffer view =>
    obtain ⟨j, hj⟩ := Option.isSome_iff_exists.1 hopen
    have written := h.writePath hj path hv
    simp only [across, hj, Option.getD_some]
    exact written
  | variable_ scope name =>
    have found := h.arenas.found scope name hopen
    simp only [across]
    cases hf : m.scopes.findIn? scope name with
    | none =>
      rw [hf] at found
      rw [Machine.writePlace_none hf, Machine.writePlace_none (rel_none found)]
      exact ⟨rfl, h⟩
    | some s =>
      rw [hf] at found
      obtain ⟨s', hs', hs⟩ := rel_some found
      cases s with
      | value old =>
        obtain ⟨old', rfl, hold⟩ := hs
        obtain ⟨same, hnew⟩ := values_assigned path hold hv
        rw [Machine.writePlace_value hf, Machine.writePlace_value hs']
        exact ⟨same, h.bind ⟨_, rfl, hnew⟩⟩
      | view view =>
        obtain ⟨j, rfl, hj⟩ := hs
        rw [Machine.writePlace_view hf, Machine.writePlace_view hs']
        exact h.writePath hj path hv

theorem alike_of_eq {α : Type} {Q : α → α → Prop} (hQ : ∀ a, Q a a) {r r' : Run α} (h : r' = r) :
    Run.Alike Q r r' := by
  subst h
  cases r' with
  | error e => rfl
  | ok a => exact ⟨a, rfl, hQ a⟩

theorem texture_of_values {i i' : TextureId} (h : b.values (.texture i) (.texture i')) :
    b.texture? i = some i' := by
  obtain ⟨hi', hi⟩ := h
  rw [Value.rename_texture] at hi' hi
  obtain ⟨j, hj⟩ := (b.within_texture_iff).1 (Value.texture.inj hi)
  have e : i' = b.across.texture i := Value.texture.inj hi'
  rw [hj, e]
  simp [across, hj]

/-- A declaration binds a name in the scope that the runs are in. -/
theorem Related.declare (h : b.Related w m m') {calls : String → Prop} {v v' : Value}
    (name : String) (hv : b.values v v') :
    b.Related ((b.correspondence calls).declare w name) (m.bind w.here.scope name (.value v))
      (m'.bind w.here.scope name (.value v')) := by
  have bound : b.Related w (m.bind w.here.scope name (.value v))
      (m'.bind w.here.scope name (.value v')) := h.bind ⟨v', rfl, hv⟩
  refine { bound with frames := fun f hf => ?_ }
  obtain rfl | hf := List.mem_cons.1 hf
  · obtain ⟨hlt, hlocals⟩ := bound.frames w.here List.mem_cons_self
    refine ⟨hlt, fun n hn => ?_⟩
    obtain hn | ⟨hin, rfl⟩ := hn
    · exact hlocals n hn
    · refine .here (h.inside hin) ?_
      have hlt' := (h.frames w.here List.mem_cons_self).1
      exact (congrArg Option.isSome (ScopeArena.findIn?_insert_self hlt')).trans rfl
  · exact bound.frames f (List.mem_cons_of_mem _ hf)

/-- Every primitive step that stays clear of what is hidden keeps the machines related. -/
theorem lawful (b : Bridge) (calls : String → Prop) : (b.correspondence calls).Lawful where
  calm _ h := h.elim
  discarded h := h.discarded
  callResults h := ⟨h.callResults, h.callResults'⟩
  callDepth h := h.callDepth
  withDepth n h := { h with callDepth := rfl }
  layouts h := h.layouts
  withLayouts l h := { h with layouts := rfl }
  reported e _ h := { h with diagnostics := by rw [h.diagnostics] }
  readName w name := by
    refine evalSim_of_read (Eval.readName_run _ name) (Eval.readName_run _ name) fun hsees m m' hm => ?_
    have hin : name ∉ b.hidden ∨ m.scopes.BoundInside name w.here.scope :=
      hsees.imp (fun h => h) ((hm.frames w.here List.mem_cons_self).2 name)
    unfold Machine.nameValue
    obtain ⟨hl, hl'⟩ | ⟨owner, s, s', hl, hl', hs, -⟩ := hm.arenas.lookup w.here.scope hin
    · change Run.Alike _ ((m.scopes.lookup w.here.scope name).elim _ _)
        ((m'.scopes.lookup w.here.scope name).elim _ _)
      rw [hl, hl']
      rfl
    · change Run.Alike _ ((m.scopes.lookup w.here.scope name).elim _ _)
        ((m'.scopes.lookup w.here.scope name).elim _ _)
      rw [hl, hl']
      exact hm.slotValue hs
  placeOfName w name line := by
    refine evalSim_of_read (Eval.placeOfName_run _ name line) (Eval.placeOfName_run _ name line)
      fun hsees m m' hm => ?_
    have hin : name ∉ b.hidden ∨ m.scopes.BoundInside name w.here.scope :=
      hsees.imp (fun h => h) ((hm.frames w.here List.mem_cons_self).2 name)
    unfold Machine.namePlace
    change Run.Alike _ ((m.scopes.lookup w.here.scope name).elim _ _)
      ((m'.scopes.lookup w.here.scope name).elim _ _)
    obtain ⟨hl, hl'⟩ | ⟨owner, s, s', hl, hl', hs, hopen⟩ := hm.arenas.lookup w.here.scope hin
    · rw [hl, hl']
      rfl
    · rw [hl, hl']
      exact ⟨_, rfl, Related.place hs hopen⟩
  readPlace w q q' := evalSim_of_read (Eval.readPlace_run q) (Eval.readPlace_run q')
    fun hq m m' hm => hm.readPlace hq
  writePlace w q q' v v' := by
    refine evalSim_of_change (Machine.diagnostics_writePlace q v) fun hp m m' hm => ?_
    obtain ⟨same, hm₁⟩ := hm.writePlace hp.1 hp.2
    exact ⟨alike_of_eq (fun _ => trivial) same, hm₁⟩
  countAt w q q' := by
    refine evalSim_of_read (Eval.countAt_run q) (Eval.countAt_run q') fun hq m m' hm => ?_
    exact alike_of_eq (fun _ => rfl) (hm.countAt hq)
  below {w q q'} a hq := by
    obtain ⟨rfl, hopen⟩ := hq
    obtain ⟨root, path⟩ := q
    cases root with
    | buffer view => exact ⟨rfl, hopen⟩
    | variable_ scope name => exact ⟨rfl, hopen⟩
  ofPointer {w q q'} h := by
    obtain ⟨h', hq⟩ := h
    rw [Value.rename_pointer] at h' hq
    exact ⟨Value.pointer.inj h', (b.within_place_iff).1 (Value.pointer.inj hq)⟩
  toPointer {w q q'} _ hq := by
    obtain ⟨rfl, hopen⟩ := hq
    refine ⟨(Value.rename_pointer _).symm, ?_⟩
    rw [Value.rename_pointer]
    exact congrArg Value.pointer ((b.within_place_iff).2 hopen)
  texture hi h := h.memory.texture (texture_of_values hi)
  onTexture w i i' c := by
    refine evalSim_of_change (fun m => rfl) fun hp m m' hm => ?_
    obtain ⟨same, hm₁⟩ := hm.onMemory (Memory.parallel_onTexture b.texture_inj (texture_of_values hp) c)
    exact ⟨alike_of_eq (fun _ => trivial) same, hm₁⟩
  bind name _ hv h := h.declare name hv
  weaken {w m m'} name h :=
    { h with
      frames := fun f hf => by
        obtain rfl | hf := List.mem_cons.1 hf
        · obtain ⟨hlt, hlocals⟩ := h.frames _ List.mem_cons_self
          exact ⟨hlt, fun n hn => hlocals n (Or.inl hn)⟩
        · exact h.frames f (List.mem_cons_of_mem _ hf) }
  scope_declare _ _ := rfl
  scope'_declare _ _ := rfl
  sees_declare name h := h.imp (fun h => h) Or.inl
  declares_inner _ _ := trivial
  inner_declare _ h := h
  sees_declared name h := Or.inr (Or.inr ⟨h, rfl⟩)
  everywhere scope := ⟨⟨⟨scope, fun _ => True⟩, [], True, [], .empty, .empty, [], []⟩, rfl, trivial,
    fun _ => Or.inr trivial⟩
  opens {w m m'} h := by
    obtain ⟨hlt, hlocals⟩ := h.frames w.here List.mem_cons_self
    refine ⟨w.entered m.scopes.depth w.here.locals,
      ⟨trivial, rfl, h.arenas.depth.symm, h.push hlt hlocals, fun n n' hn => ?_⟩, fun n hn => hn⟩
    exact Related.pop hn h.order h.inside
  enters {w m m'} h := by
    have hroot : ScopeArena.root < m.scopes.depth :=
      Nat.lt_of_le_of_lt (Nat.zero_le _) (h.frames w.here List.mem_cons_self).1
    refine ⟨w.entered m.scopes.depth fun _ => False,
      ⟨trivial, rfl, h.arenas.depth.symm, h.push hroot (fun n hn => hn.elim), fun n n' hn => ?_⟩,
      fun n hn => Or.inl hn⟩
    exact Related.pop hn h.order h.inside
  discard _ h := { h with discarded := rfl }

end

end Bridge

end Wgsl
