import Wgsl.Proofs.Machine.History
import Wgsl.Proofs.Machine.Mirroring
import Wgsl.Proofs.Machine.Watched

/-! # Machines of rectangles

What the parts of the interpreter do to a machine whose matrices are rectangles: they leave such a
machine behind, and what they read from it or from memory are rectangles again.

* `Memory.ensures_loadAt`: loads from a buffer build rectangles.
* `Machine.Rectangular.writePlace`: writing keeps them, also where it stops half way.
* `Invariant.rectangles`: all values hold rectangles.
* `Exec.mirrors_watched`: looking at a machine of rectangles makes no difference.
* `Eval.mirrors_callMemory`: functions that read or change the machine keep its rectangles.
-/

namespace Wgsl
set_option autoImplicit false

open Number (Single)
open Run (Ensures ensures_pure ensures_throw ensures_all ensures_next ensures_mapM)
open Value (Rectangle Rectangular)
open Invariant (mirrors_readPlace mirrors_writePlace)

variable {α : Type}

/-! ## Memory -/

namespace Memory

theorem rectangular_decode (kind : ScalarKind) (bytes : List UInt8) :
    (kind.decode bytes).Rectangular := by
  cases kind <;> trivial

variable (m : Memory)

theorem ensures_loadScalar (kind : ScalarKind) (buffer : BufferId) (start : Nat) :
    Ensures Rectangular (m.loadScalar kind buffer start) :=
  ensures_next _ fun _ => ensures_pure (rectangular_decode kind _)

mutual

theorem ensures_loadAt (buffer : BufferId) :
    ∀ (t : TypeInfo) (offset : Nat), Ensures Rectangular (m.loadAt buffer t offset)
  | .mk name attributes size align shape, offset => by
    rw [loadAt]
    exact ensures_loadShape _ shape

theorem ensures_loadShape (v : BufferView) :
    ∀ shape : TypeShape, Ensures Rectangular (m.loadShape v shape)
  | .scalar kind => by
    rw [loadShape]
    exact ensures_loadScalar m kind _ _
  | .handle => by
    rw [loadShape]
    exact ensures_throw _
  | .array element count stride => by
    rw [loadShape]
    refine (Run.ensures_values fun i => ?_).map fun vs hvs => Value.rectangular_array.2 hvs.2
    exact ensures_next _ fun w => ensures_loadAt v.buffer element _
  | .struct tag members open_ extra => by
    rw [loadShape]
    exact (ensures_loadMembers v members).map fun fields hfields =>
      Value.rectangular_struct.2 hfields
  | .template base param access storage => by
    rw [loadShape]
    split
    · rename_i columns rows hs
      have column : ∀ i : Nat, Ensures (fun column : List Single => column.length = rows)
          (do let items ← loadComponents m rows (← v.element i 0) param; items.mapM Value.number) := by
        intro i
        refine ensures_next _ fun w => (ensures_loadComponents rows w param).bind fun items hitems => ?_
        intro xs hxs
        have counted := (ensures_mapM fun c _ => ensures_all (Value.number c)) xs hxs
        exact counted.1.trans hitems.1
      refine (Run.ensures_values column).map fun found hfound => ?_
      exact Value.rectangle_of_shape hs hfound.1 hfound.2
    · split
      · exact Value.ensures_vector (ensures_loadComponents _ v param)
      · split
        · exact ensures_loadScalar m _ _ _
        · exact ensures_throw _

theorem ensures_loadComponents (length : Nat) (v : BufferView) :
    ∀ param : Option TypeInfo, Ensures (fun vs => vs.length = length ∧ ∀ v ∈ vs, v.Rectangular)
      (m.loadComponents length v param)
  | none => by
    rw [loadComponents]
    exact Run.ensures_values fun i => ensures_next _ fun w => ensures_throw _
  | some element => by
    rw [loadComponents]
    exact Run.ensures_values fun i => ensures_next _ fun w => ensures_loadAt v.buffer element _

theorem ensures_loadMembers (v : BufferView) : ∀ members : List MemberInfo,
    Ensures (fun fields => ∀ field ∈ fields, field.2.Rectangular) (m.loadMembers v members)
  | [] => by
    rw [loadMembers]
    exact ensures_pure nofun
  | .mk name type offset size align :: rest => by
    rw [loadMembers]
    refine ensures_next _ fun w => (ensures_loadAt v.buffer type _).bind fun value hvalue => ?_
    refine (ensures_loadMembers v rest).bind fun fields hfields => ?_
    exact ensures_pure (List.forall_mem_cons.2 ⟨hvalue, hfields⟩)

end

theorem ensures_readPath (v : BufferView) (path : List Access) :
    Ensures Rectangular (m.readPath v path) := by
  refine ensures_next _ fun target => ?_
  cases target with
  | view w => exact ensures_loadAt m w.buffer w.type w.offset
  | swizzle vector indices rest =>
    refine (ensures_loadAt m vector.buffer vector.type vector.offset).bind fun loaded hloaded => ?_
    refine (Value.ensures_picked indices hloaded.components).bind fun picked hpicked => ?_
    exact Value.ensures_atPath (Value.rectangular_vector.2 hpicked.2) rest

end Memory

/-- A texel is a vector of numbers. -/
theorem Texture.ensures_load (t : Texture) (coords : List Int) : Ensures Rectangular (t.load coords) := by
  have unit : ∀ (one : Bool) (c : Channel), (c.unit one).Rectangular := fun one c => by
    cases c <;> trivial
  have decoded : ∀ v ∈ t.channels 0 0, v.Rectangular := nofun
  have channels : ∀ start count, ∀ v ∈ t.channels start count, v.Rectangular := by
    intro start count v hv
    obtain ⟨i, -, rfl⟩ := List.mem_map.1 hv
    generalize t.format.channel = c
    cases c <;> trivial
  have swapped : ∀ vs : List Value, (∀ v ∈ vs, v.Rectangular) →
      ∀ v ∈ t.format.swapped vs, v.Rectangular := by
    intro vs hvs v hv
    unfold TexelFormat.swapped at hv
    split at hv
    · exact hvs v (by simp only [List.mem_cons] at hv ⊢; tauto)
    · exact hvs v hv
  refine ensures_next _ fun start => ensures_pure (Value.rectangular_vector.2 fun v hv => ?_)
  obtain hv | hv := List.mem_append.1 hv
  · exact swapped _ (channels _ _) v hv
  · have units := List.mem_of_mem_drop hv
    simp only [List.mem_cons, List.not_mem_nil, or_false] at units
    obtain rfl | rfl | rfl | rfl := units <;> exact unit _ _

/-! ## Machines of rectangles -/

namespace Machine

variable {m : Machine} {scope : ScopeId} {name : String} {slot : Slot} {v : Value}

theorem Rectangular.findIn? (h : m.Rectangular) (hs : m.scopes.findIn? scope name = some slot) :
    slot.Rectangular := by
  obtain ⟨found, hfound, hslot⟩ := Option.bind_eq_some_iff.1 hs
  obtain ⟨before, after, e, -⟩ := List.lookup_eq_some_iff.1 hslot
  refine h.scopes found (Array.mem_of_getElem? hfound) (name, slot) ?_
  rw [e]
  exact List.mem_append_right _ List.mem_cons_self

theorem Rectangular.lookup {owner : ScopeId} (h : m.Rectangular)
    (hs : m.scopes.lookup scope name = some (owner, slot)) : slot.Rectangular :=
  h.findIn? (ScopeArena.findIn?_of_lookupWithin _ hs)

theorem Rectangular.of_scopes {m₁ : Machine} (h : m.Rectangular) (hs : m₁.scopes = m.scopes)
    (hc : m₁.callResults = m.callResults) : m₁.Rectangular :=
  ⟨hs ▸ h.scopes, hc ▸ h.callResults⟩

theorem Rectangular.bind (h : m.Rectangular) (hslot : slot.Rectangular) :
    (m.bind scope name slot).Rectangular where
  scopes found hfound := by
    change found ∈ m.scopes.scopes.modify scope fun s => s.insert name slot at hfound
    obtain ⟨i, hi, rfl⟩ := Array.mem_iff_getElem.1 hfound
    rw [Array.getElem_modify]
    split
    · exact Value.forall_mem_insert (h.scopes _ (Array.getElem_mem _)) hslot
    · exact h.scopes _ (Array.getElem_mem _)
  callResults := h.callResults

theorem Rectangular.pushed (h : m.Rectangular) (parent : ScopeId) : (m.pushed parent).Rectangular where
  scopes := Array.forall_mem_push.2 ⟨nofun, h.scopes⟩
  callResults := h.callResults

theorem Rectangular.popped (h : m.Rectangular) (scope : ScopeId) : (m.popped scope).Rectangular where
  scopes found hfound := by
    refine h.scopes found ?_
    change found ∈ (m.scopes.pop scope).scopes at hfound
    unfold ScopeArena.pop at hfound
    split at hfound
    · obtain ⟨k, hk, e⟩ := Array.mem_extract_iff_getElem.1 hfound
      exact e ▸ Array.getElem_mem _
    · exact hfound
  callResults := h.callResults

theorem rectangular_reset (m : Machine) : m.reset.Rectangular where
  scopes found hfound := by
    obtain rfl : found = Scope.empty none := by simpa [reset, ScopeArena.new] using hfound
    exact nofun
  callResults := nofun

theorem ensures_slotValue (m : Machine) (h : slot.Rectangular) : Ensures Value.Rectangular (m.slotValue slot) := by
  cases slot with
  | value v => exact ensures_pure h
  | view view => exact m.memory.ensures_loadAt view.buffer view.type view.offset

theorem Rectangular.readName (h : m.Rectangular) (scope : ScopeId) (name : String) :
    Ensures Value.Rectangular (m.nameValue scope name) := by
  unfold nameValue
  cases found : m.scopes.lookup scope name with
  | none => exact ensures_throw _
  | some bound => exact ensures_slotValue m (h.lookup found)

theorem Rectangular.readPlace (h : m.Rectangular) (q : Place) :
    Ensures Value.Rectangular (m.readPlace q) := by
  unfold Machine.readPlace
  split
  · exact m.memory.ensures_readPath _ _
  · split
    · rename_i old found
      have bound : Value.Rectangular old := h.findIn? found
      exact Value.ensures_atPath bound _
    · exact m.memory.ensures_readPath _ _
    · exact ensures_throw _

/-- What is written is a rectangle still, also where writing stops half way. -/
theorem Rectangular.writePlace (h : m.Rectangular) (q : Place) (hv : v.Rectangular) :
    ((Machine.writePlace q v).apply m).2.Rectangular := by
  obtain ⟨root, path⟩ := q
  cases root with
  | buffer view => exact h.of_scopes rfl rfl
  | variable_ scope name =>
    cases hf : m.scopes.findIn? scope name with
    | none => rwa [writePlace_none hf]
    | some slot =>
      cases slot with
      | value old =>
        rw [writePlace_value hf]
        exact h.bind (Value.rectangular_assignPath path hv (h.findIn? hf))
      | view view =>
        rw [writePlace_view hf]
        exact h.of_scopes rfl rfl

theorem Rectangular.bindResource (h : m.Rectangular) (r : Resource) (g : BindGroups) :
    (m.bindResource r g).1.Rectangular := by
  have bound : ∀ (memory : Memory) (b : Bound) {slot : Slot}, slot.Rectangular →
      (({ m with memory }.noteBound b).bind ScopeArena.root r.name slot).Rectangular := by
    intro memory b slot hs
    have noted : ({ m with memory }.noteBound b).Rectangular := h.of_scopes rfl rfl
    exact noted.bind hs
  unfold Machine.bindResource
  dsimp only
  split <;> first | exact bound _ _ trivial | exact h.bind trivial | exact h

theorem Rectangular.bindResources (h : m.Rectangular) (resources : List Resource) (g : BindGroups) :
    (m.bindResources resources g).1.Rectangular := by
  induction resources generalizing m g with
  | nil => exact h
  | cons r rest ih => exact ih (h.bindResource r g) _

end Machine

/-- Every matrix is a rectangle. -/
def Invariant.rectangles : Invariant where
  machine _ m := m.Rectangular
  value := Rectangular
  void := trivial
  bool _ := trivial
  i32 _ := trivial
  f32 _ := trivial
  pointer _ := trivial
  literal := Value.rectangular_ofLiteral
  zeroOf := Value.rectangular_zeroOf
  ofDouble := Value.rectangular_ofDouble
  unary op _ hv := Value.ensures_unary op hv
  bitcast := Value.ensures_bitcast
  construct t inferred _ hargs := Value.ensures_construct t inferred hargs
  coerceTo t _ hv := Value.ensures_coerceTo t hv
  part a _ hv := Value.ensures_part hv a
  nameValue hm := hm.readName
  readPlace hm := hm.readPlace
  callResult hm := hm.callResults
  writePlace hm q _ hv := hm.writePlace q hv
  bind hm _ _ _ hv := hm.bind hv
  pushed hm := hm.pushed
  popped hm := hm.popped
  same hm hs hc _ _ := hm.of_scopes hs hc
  deeper _ _ hm := hm.of_scopes rfl rfl
  shallower hm := hm.of_scopes rfl rfl

/-! ## Two computations, one of which watches -/

namespace Exec

variable {good : α → Prop} {x x' : Exec α} {stop : Fault} {depth : Nat}

/-- Looking at the machine makes no difference. -/
theorem mirrors_watched {seen : α → Prop} [DecidablePred seen]
    (h : Invariant.rectangles.Execs depth good x x') (hseen : ∀ a, good a → seen a) :
    Invariant.rectangles.Execs depth good x (watched stop seen x') := by
  intro m (hm : m.Rectangular)
  obtain ⟨same, leaves⟩ := h m hm
  refine ⟨?_, leaves⟩
  unfold Exec.watched
  rw [if_pos hm, same]
  cases hrun : x m with
  | error e => rfl
  | ok r =>
    obtain ⟨hm₁, ha⟩ := leaves r.1 r.2 hrun
    exact if_pos ⟨hm₁, hseen _ ha⟩

theorem mirrors_layout (x : LayoutM α) :
    Invariant.rectangles.Execs depth (fun _ => True) (layout x) (layout x) := by
  refine fun m hm => ⟨rfl, fun a m₁ hrun => ⟨?_, trivial⟩⟩
  unfold Exec.layout at hrun
  obtain ⟨r, -, hrun⟩ := Fault.bind_ok hrun
  cases hrun
  exact Machine.Rectangular.of_scopes hm rfl rfl

end Exec

namespace Eval

variable {good : α → Prop} {stop : Fault} {depth : Nat}

theorem mirrors_watched {x x' : Eval Value}
    (h : Invariant.rectangles.Evals depth Value.Rectangular x x') :
    Invariant.rectangles.Evals depth Value.Rectangular x (watched stop x') :=
  Exec.mirrors_watched h fun r hr => by
    cases r with
    | ok v => exact hr v rfl
    | error e => trivial

/-- A computation in which no check fails. -/
theorem mirrors_checked {c : Checked α} {r : Run α} (hc : c = Checked.ofRun r) (h : Ensures good r) :
    Invariant.rectangles.Evals depth good (liftM r : Eval α) (ofChecked stop c) := by
  subst hc
  exact fun m hm => ⟨by cases r <;> rfl, (mirrors_lift h m hm).2⟩

/-! ## Built-in functions -/

theorem mirrors_texture (v : Value) : Invariant.rectangles.Evals depth (fun _ => True) (texture v) (texture v) := by
  unfold texture
  split
  · exact mirrors_get fun m _ => mirrors_lift (ensures_all _)
  · exact mirrors_throw _

theorem ensures_atomicUpdate? {name : String} {update : Value → Value → Run Value}
    (h : atomicUpdate? name = some update) {old new : Value} (hold : old.Rectangular)
    (hnew : new.Rectangular) : Ensures Value.Rectangular (update old new) := by
  unfold atomicUpdate? at h
  split at h <;> cases h
  case h_3 => exact Library.ensures_extreme true hold hnew
  case h_4 => exact Library.ensures_extreme false hold hnew
  case h_8 => exact ensures_pure hnew
  all_goals exact Value.ensures_binary _ hold hnew

theorem mirrors_compareExchange (q : Place) (expected : Value) {new : Value} (hnew : new.Rectangular) :
    Invariant.rectangles.Evals depth Value.Rectangular (compareExchange q expected new) (compareExchange q expected new) := by
  have result : ∀ (b : Bool) (kind : ScalarKind) {old : Value}, old.Rectangular → Value.Rectangular
      (.struct ("__atomic_compare_exchange_result_" ++ kind.name)
        [("old_value", old), ("exchanged", .bool b)]) := fun b kind old hold =>
    Value.rectangular_struct.2 (List.forall_mem_cons.2 ⟨hold, List.forall_mem_singleton.2 trivial⟩)
  refine (mirrors_readPlace q).bind fun old hold => ?_
  refine (mirrors_lift (ensures_all _)).bind fun same _ => ?_
  refine (mirrors_lift (ensures_all _)).bind fun exchanged _ => ?_
  cases exchanged with
  | true => exact (mirrors_writePlace q hnew).bind fun _ _ => mirrors_pure (result _ _ hold)
  | false => exact mirrors_pure (result _ _ hold)

theorem mirrors_onMemory (c : Change Memory α) : Invariant.rectangles.Evals depth (fun _ => True)
    (ofChange (Machine.onMemory c)) (ofChange (Machine.onMemory c)) := fun m hm =>
  ⟨rfl, fun r m₁ hrun => by
    have left := Except.ok.inj hrun
    refine ⟨?_, fun _ _ => trivial⟩
    have kept : ((Machine.onMemory c).apply m).2.Rectangular := hm.of_scopes rfl rfl
    rwa [left] at kept⟩

theorem mirrors_textureStore (v : Value) (args : List Value) :
    Invariant.rectangles.Evals depth Value.Rectangular (textureStore v args) (textureStore v args) := by
  unfold textureStore
  split
  · exact mirrors_throw _
  · refine (mirrors_texture v).bind fun t _ => (mirrors_lift (ensures_all _)).bind fun coords _ => ?_
    cases v with
    | texture id => exact (mirrors_onMemory _).bind fun _ _ => mirrors_pure trivial
    | _ => exact mirrors_throw _

theorem mirrors_callMemory (name : String) {args : List Value} (h : ∀ v ∈ args, v.Rectangular) :
    Invariant.rectangles.Evals depth Value.Rectangular (callMemory name args) (callMemory name args) := by
  have second : ∀ {a b : Value} {rest : List Value}, (∀ v ∈ a :: b :: rest, v.Rectangular) →
      b.Rectangular := fun h => h _ (List.mem_cons_of_mem _ List.mem_cons_self)
  unfold callMemory
  split
  · refine (mirrors_lift (ensures_all _)).bind fun q _ => mirrors_get fun m _ => ?_
    exact (mirrors_lift (ensures_all _)).bind fun n _ => mirrors_pure trivial
  · exact (mirrors_lift (ensures_all _)).bind fun q _ => mirrors_readPlace q
  · exact (mirrors_lift (ensures_all _)).bind fun q _ => mirrors_readPlace q
  · refine (mirrors_lift (ensures_all _)).bind fun q _ => ?_
    exact (mirrors_writePlace q (second h)).bind fun _ _ => mirrors_pure trivial
  · refine (mirrors_lift (ensures_all _)).bind fun q _ => ?_
    exact mirrors_compareExchange q _ (h _ (by simp))
  · refine (mirrors_texture _).bind fun t _ => mirrors_pure ?_
    unfold dimensions
    split
    · trivial
    · refine Value.rectangular_vector.2 fun v hv => ?_
      obtain ⟨n, -, rfl⟩ := List.mem_map.1 hv
      trivial
  · exact (mirrors_texture _).bind fun t _ => mirrors_pure trivial
  · refine (mirrors_texture _).bind fun t _ => (mirrors_lift (ensures_all _)).bind fun coords _ => ?_
    exact mirrors_lift (t.ensures_load coords)
  · exact mirrors_textureStore _ _
  · split
    · rename_i update found
      refine (mirrors_lift (ensures_all _)).bind fun q _ => (mirrors_readPlace q).bind fun old hold => ?_
      refine (mirrors_lift (ensures_atomicUpdate? found hold (second h))).bind fun new hnew => ?_
      exact (mirrors_writePlace q hnew).bind fun _ _ => mirrors_pure hold
    · exact mirrors_throw _
  · exact mirrors_throw _

end Eval

end Wgsl
