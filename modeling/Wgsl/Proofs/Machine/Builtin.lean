import Wgsl.Machine.Builtin
import Wgsl.Proofs.Machine.Correspondence

/-! # Built-in functions in two runs

A call of a built-in function with arguments that stand for each other does the same in both runs.
-/

namespace Wgsl
set_option autoImplicit false

open Correspondence
open Value (rename)

/-- Lists of values that stand for each other. -/
def Correspondence.valuesAll (C : Correspondence) (vs vs' : List Value) : Prop :=
  vs' = vs.map (rename C.across) ∧ vs.map (rename C.within) = vs

section

variable {C : Correspondence} {α : Type} {p : Prop} {w : C.World}

theorem valuesAll_nil : C.valuesAll [] [] := ⟨rfl, rfl⟩

theorem valuesAll_cons {v v' : Value} {vs vs' : List Value} (h : C.values v v')
    (hs : C.valuesAll vs vs') : C.valuesAll (v :: vs) (v' :: vs') := by
  obtain ⟨rfl, h⟩ := h
  obtain ⟨rfl, hs⟩ := hs
  exact ⟨rfl, by rw [List.map_cons, h, hs]⟩

theorem valuesAll_of_cons {v : Value} {vs vs' : List Value} (h : C.valuesAll (v :: vs) vs') :
    ∃ u us, vs' = u :: us ∧ C.values v u ∧ C.valuesAll vs us := by
  obtain ⟨rfl, hs⟩ := h
  rw [List.map_cons, List.cons.injEq] at hs
  exact ⟨_, _, rfl, ⟨rfl, hs.1⟩, rfl, hs.2⟩

theorem alike_of_natural₂ {f : Value → Value → Run Value} (hf : ∀ ρ, Value.Natural₂ ρ f)
    {v v' u u' : Value} (h : C.values v v') (hu : C.values u u') :
    Run.Alike C.values (f v u) (f v' u') := by
  obtain ⟨rfl, hv⟩ := h
  obtain ⟨rfl, hu⟩ := hu
  have within := hf C.within v u
  rw [hv, hu] at within
  rw [hf C.across v u]
  cases hr : f v u with
  | error e => rfl
  | ok r =>
    rw [hr] at within
    exact ⟨r.rename C.across, rfl, rfl, (Except.ok.inj within).symm⟩

/-- The second value is the first one renamed, so its shape is known. -/
theorem evalSim_of_values {w₁ : C.World} {Q : α → α → Prop} {f g : Value → Eval α} {v v' : Value}
    (hv : p → C.values v v')
    (h : C.EvalSim (p ∧ C.values v (v.rename C.across)) w w₁ Q (f v) (g (v.rename C.across))) :
    C.EvalSim p w w₁ Q (f v) (g v') where
  spoils := h.spoils
  follows hp := by
    have hv' := hv hp
    have e : v' = v.rename C.across := hv'.1
    subst e
    exact h.follows ⟨hp, hv'⟩

theorem evalSim_bind_values {Q : α → α → Prop} {x x' : Eval Value} {f f' : Value → Eval α}
    (hx : C.EvalSim p w w C.values x x')
    (hf : ∀ v, C.EvalSim (p ∧ C.values v (v.rename C.across)) w w Q (f v) (f' (v.rename C.across))) :
    C.EvalSim p w w Q (x >>= f) (x' >>= f') := by
  refine evalSim_bind hx fun v v' => evalSim_of_values (fun hp => hp.2) ?_
  exact evalSim_assuming (hf v) fun hp => ⟨hp.1.1, hp.2⟩

theorem evalSim_of_valuesAll {w₁ : C.World} {Q : α → α → Prop} {f g : List Value → Eval α}
    {vs vs' : List Value} (hv : p → C.valuesAll vs vs')
    (h : C.EvalSim (p ∧ C.valuesAll vs (vs.map (rename C.across))) w w₁ Q (f vs)
      (g (vs.map (rename C.across)))) :
    C.EvalSim p w w₁ Q (f vs) (g vs') where
  spoils := h.spoils
  follows hp := by
    have hv' := hv hp
    have e : vs' = vs.map (rename C.across) := hv'.1
    subst e
    exact h.follows ⟨hp, hv'⟩

/-- A value without names stands for itself. -/
theorem values_plain_self {v : Value} (h : ∀ ρ, rename ρ v = v) : C.values v v :=
  ⟨(h _).symm, h _⟩

theorem values_pointer {q : Place} {v' : Value} (h : C.values (.pointer q) v') :
    ∃ q', v' = .pointer q' ∧ C.values (.pointer q) (.pointer q') := by
  have e : v' = .pointer (C.across.place q) := by rw [h.1, Value.rename_pointer]
  exact ⟨_, e, e ▸ h⟩

theorem alike_call? (name : String) {vs vs' : List Value} (h : C.valuesAll vs vs') :
    (Library.call? name vs = none ∧ Library.call? name vs' = none) ∨
      ∃ r r', Library.call? name vs = some r ∧ Library.call? name vs' = some r' ∧
        Run.Alike C.values r r' := by
  obtain ⟨rfl, hs⟩ := h
  have across := Library.natural_call? (ρ := C.across) name vs
  have within := Library.natural_call? (ρ := C.within) name vs
  rw [hs] at within
  cases hc : Library.call? name vs with
  | none =>
    rw [hc] at across
    exact Or.inl ⟨rfl, across⟩
  | some r =>
    rw [hc] at across within
    refine Or.inr ⟨r, _, rfl, across, ?_⟩
    have hw : r = rename C.within <$> r := Option.some.inj within
    cases r with
    | error e => rfl
    | ok v => exact ⟨_, rfl, rfl, (Except.ok.inj hw).symm⟩

end

namespace Eval

theorem natural_atomicUpdate? {name : String} {update : Value → Value → Run Value}
    (h : atomicUpdate? name = some update) (ρ : Renaming) : Value.Natural₂ ρ update := by
  unfold atomicUpdate? at h
  split at h <;> cases h
  all_goals
    first
    | exact Value.natural_binary _
    | exact Library.natural_extreme _
    | exact fun _ _ => rfl

theorem coordinates_alike {C : Correspondence} (t : Texture) {vs vs' : List Value} (h : C.valuesAll vs vs') :
    coordinates t vs' = coordinates t vs := by
  obtain ⟨rfl, -⟩ := h
  cases vs with
  | nil => rfl
  | cons first rest =>
    simp only [List.map_cons, coordinates, Value.components_rename,
      Value.mapM_map_invariant Value.integer_rename]
    cases rest with
    | nil => rfl
    | cons layer more => simp only [List.map_cons, Value.integer_rename]

/-- The functions on memory that are known by name. -/
def memoryFunctions : List String :=
  ["arrayLength", "atomicLoad", "workgroupUniformLoad", "atomicStore", "atomicCompareExchangeWeak",
    "textureDimensions", "textureNumLayers", "textureLoad", "textureStore"]

theorem callMemory_nil (name : String) :
    callMemory name [] = throw (RunCause.unsupported name).unplaced := by
  unfold callMemory
  split <;> first | rfl | simp_all

theorem callMemory_one {name : String} (h : name ∉ memoryFunctions ∨ name = "atomicStore" ∨
    name = "atomicCompareExchangeWeak") (a : Value) :
    callMemory name [a] = throw (RunCause.unsupported name).unplaced := by
  unfold callMemory
  split <;> first | rfl | simp_all [memoryFunctions]

theorem callMemory_exchange_two (a b : Value) : callMemory "atomicCompareExchangeWeak" [a, b] =
    throw (RunCause.unsupported "atomicCompareExchangeWeak").unplaced := rfl

theorem callMemory_update {name : String} (h : name ∉ memoryFunctions)
    {update : Value → Value → Run Value} (hu : atomicUpdate? name = some update) (a b : Value)
    (rest : List Value) : callMemory name (a :: b :: rest) =
      (do atomic update (← pointer name a) b) := by
  unfold callMemory
  split <;> simp_all [memoryFunctions]

theorem callMemory_unsupported {name : String} (h : name ∉ memoryFunctions)
    (hu : atomicUpdate? name = none) (a b : Value) (rest : List Value) :
    callMemory name (a :: b :: rest) = throw (RunCause.unsupported name).unplaced := by
  unfold callMemory
  split <;> simp_all [memoryFunctions]

section

variable {C : Correspondence} (L : C.Lawful) {p : Prop} {w : C.World}

include L

/-! ## Pointers -/

theorem evalSim_pointer (function : String) {v v' : Value} (h : p → C.values v v') :
    C.EvalSim p w w (C.places w) (liftM (pointer function v)) (liftM (pointer function v')) := by
  refine evalSim_lift L fun hp => ?_
  have hv := h hp
  cases v with
  | pointer q =>
    obtain ⟨q', rfl, hq⟩ := values_pointer hv
    exact ⟨q', rfl, L.ofPointer hq⟩
  | _ =>
    obtain ⟨rfl, -⟩ := hv
    simp [pointer, Run.Alike, throw, throwThe, MonadExceptOf.throw]

theorem evalSim_readPlace {q q' : Place} (h : p → C.places w q q') :
    C.EvalSim p w w C.values (readPlace q) (readPlace q') :=
  evalSim_assuming (L.readPlace w q q') h

theorem evalSim_writePlace {q q' : Place} {v v' : Value} (hq : p → C.places w q q')
    (hv : p → C.values v v') :
    C.EvalSim p w w (fun _ _ => True) (writePlace q v) (writePlace q' v') :=
  evalSim_assuming (L.writePlace w q q' v v') fun hp => ⟨hq hp, hv hp⟩

/-! ## Atomics -/

theorem evalSim_atomic {update : Value → Value → Run Value} (hu : ∀ ρ, Value.Natural₂ ρ update)
    {q q' : Place} {v v' : Value} (hq : p → C.places w q q') (hv : p → C.values v v') :
    C.EvalSim p w w C.values (atomic update q v) (atomic update q' v') := by
  refine evalSim_bind (evalSim_readPlace L hq) fun old old' => ?_
  refine evalSim_bind (P := C.values) (evalSim_lift L fun h => ?_) fun new new' => ?_
  · exact alike_of_natural₂ hu h.2 (hv h.1)
  · refine evalSim_bind (evalSim_writePlace L (fun h => hq h.1.1) fun h => h.2) fun _ _ => ?_
    exact evalSim_pure fun h => h.1.1.2

theorem evalSim_truth {v v' : Value} (h : p → C.values v v') :
    C.EvalSim p w w Eq (liftM v.truth) (liftM v'.truth) :=
  evalSim_lift L fun hp => alike_of_invariant (fun _ => Value.truth_rename) (h hp)

theorem evalSim_binary (op : BinaryOp) {v v' u u' : Value} (hv : p → C.values v v')
    (hu : p → C.values u u') :
    C.EvalSim p w w C.values (liftM (Value.binary op v u)) (liftM (Value.binary op v' u')) :=
  evalSim_lift L fun hp => alike_of_natural₂ (fun _ => Value.natural_binary op) (hv hp) (hu hp)

theorem evalSim_compareExchange {q q' : Place} {e e' v v' : Value} (hq : p → C.places w q q')
    (he : p → C.values e e') (hv : p → C.values v v') :
    C.EvalSim p w w C.values (compareExchange q e v) (compareExchange q' e' v') := by
  have result : ∀ (b : Bool) {old old' : Value}, C.values old old' →
      C.values (.struct ("__atomic_compare_exchange_result_" ++ (old.scalarKind?.getD .u32).name)
        [("old_value", old), ("exchanged", .bool b)])
      (.struct ("__atomic_compare_exchange_result_" ++ (old'.scalarKind?.getD .u32).name)
        [("old_value", old'), ("exchanged", .bool b)]) := by
    rintro b old old' ⟨rfl, h⟩
    constructor
    · simp
    · simp [h]
  refine evalSim_bind (evalSim_readPlace L hq) fun old old' => ?_
  refine evalSim_bind (evalSim_binary L .equal (fun h => h.2) fun h => he h.1) fun same same' => ?_
  refine evalSim_bind_eq (evalSim_truth L fun h => h.2) fun b => ?_
  cases b with
  | true =>
    refine evalSim_bind (evalSim_writePlace L (fun h => hq h.1.1) fun h => hv h.1.1) fun _ _ => ?_
    exact evalSim_pure fun h => result true h.1.1.2
  | false => exact evalSim_pure fun h => result false h.1.2

/-! ## Textures -/

theorem evalSim_texture {v v' : Value} (h : p → C.values v v') :
    C.EvalSim p w w Eq (texture v) (texture v') := by
  refine evalSim_of_values h ?_
  cases v with
  | texture i =>
    rw [Value.rename_texture]
    refine evalSim_reading fun m m' => evalSim_lift L fun hp => ?_
    rw [L.texture hp.1.2 hp.2]
    cases m.memory.texture i with
    | error e => rfl
    | ok t => exact ⟨t, rfl, rfl⟩
  | array _ | struct _ _ | vector _ | pointer _ =>
    simp only [texture, Value.rename_array, Value.rename_struct, Value.rename_vector,
      Value.rename_pointer, Value.expected, Value.typeName_array_map, Value.typeName_vector_map,
      Value.typeName_struct, Value.typeName_pointer]
    exact evalSim_throw L _
  | void | bool _ | i32 _ | u32 _ | f32 _ | matrix _ | sampler =>
    simp only [Value.rename_void, Value.rename_bool, Value.rename_i32, Value.rename_u32,
      Value.rename_f32, Value.rename_matrix, Value.rename_sampler]
    exact evalSim_throw L _

theorem evalSim_coordinates (t : Texture) {vs vs' : List Value} (h : p → C.valuesAll vs vs') :
    C.EvalSim p w w Eq (liftM (coordinates t vs)) (liftM (coordinates t vs')) := by
  refine evalSim_lift L fun hp => ?_
  rw [coordinates_alike t (h hp)]
  cases coordinates t vs with
  | error e => rfl
  | ok coords => exact ⟨coords, rfl, rfl⟩

theorem evalSim_textureLoad {v v' : Value} {vs vs' : List Value} (hv : p → C.values v v')
    (hs : p → C.valuesAll vs vs') :
    C.EvalSim p w w C.values (textureLoad v vs) (textureLoad v' vs') := by
  refine evalSim_bind_eq (evalSim_texture L hv) fun t => ?_
  refine evalSim_bind_eq (evalSim_coordinates L t hs) fun coords => ?_
  refine evalSim_lift L fun _ => ?_
  have plain := fun ρ => Texture.plain_load (ρ := ρ) t coords
  cases hl : t.load coords with
  | error e => rfl
  | ok texel =>
    rw [hl] at plain
    exact ⟨texel, rfl, values_plain_self fun ρ => Except.ok.inj (plain ρ)⟩

theorem evalSim_textureStore {v v' : Value} {vs vs' : List Value} (hv : p → C.values v v')
    (hs : p → C.valuesAll vs vs') :
    C.EvalSim p w w C.values (textureStore v vs) (textureStore v' vs') := by
  refine evalSim_of_valuesAll hs ?_
  refine evalSim_of_values (f := fun v => textureStore v vs)
    (g := fun v => textureStore v (vs.map (rename C.across))) (fun hp => hv hp.1) ?_
  unfold textureStore
  rw [List.getLast?_map]
  cases vs.getLast? with
  | none => exact evalSim_throw L _
  | some texel =>
    refine evalSim_bind_eq (evalSim_texture L fun hp => hp.2) fun t => ?_
    refine evalSim_bind_eq (evalSim_coordinates L t fun hp => ?_) fun coords => ?_
    · obtain ⟨⟨-, -, hs⟩, -⟩ := hp
      constructor
      · rw [List.map_dropLast]
      · rw [List.map_dropLast, hs]
    · cases v with
      | texture i =>
        rw [Value.rename_texture, Texture.store_rename]
        refine evalSim_bind (evalSim_assuming (L.onTexture w _ _ _) fun hp => ?_) fun _ _ => ?_
        · rw [← Value.rename_texture]
          exact hp.2
        · exact evalSim_pure fun _ => values_plain_self fun _ => Value.rename_void
      | array _ | struct _ _ | vector _ | pointer _ =>
        simp only [Value.rename_array, Value.rename_struct, Value.rename_vector,
          Value.rename_pointer, Value.typeName_array_map, Value.typeName_vector_map,
          Value.typeName_struct, Value.typeName_pointer]
        exact evalSim_throw L _
      | void | bool _ | i32 _ | u32 _ | f32 _ | matrix _ | sampler =>
        simp only [Value.rename_void, Value.rename_bool, Value.rename_i32, Value.rename_u32,
          Value.rename_f32, Value.rename_matrix, Value.rename_sampler]
        exact evalSim_throw L _

/-! ## All functions -/

theorem evalSim_callMemory (name : String) {vs vs' : List Value} (hs : p → C.valuesAll vs vs') :
    C.EvalSim p w w C.values (callMemory name vs) (callMemory name vs') := by
  refine evalSim_of_valuesAll hs ?_
  have plain : ∀ {v : Value}, (∀ ρ, rename ρ v = v) → C.values v v := values_plain_self
  rcases vs with _ | ⟨a, rest⟩
  · rw [List.map_nil, callMemory_nil]
    exact evalSim_throw L _
  have first : p ∧ C.valuesAll (a :: rest) ((a :: rest).map (rename C.across)) →
      C.values a (a.rename C.across) := by
    rintro ⟨-, -, h⟩
    exact ⟨rfl, (List.cons.inj h).1⟩
  have others : p ∧ C.valuesAll (a :: rest) ((a :: rest).map (rename C.across)) →
      C.valuesAll rest (rest.map (rename C.across)) := by
    rintro ⟨-, -, h⟩
    exact ⟨rfl, (List.cons.inj h).2⟩
  rw [List.map_cons]
  by_cases h₁ : name = "arrayLength"
  · subst h₁
    rw [callMemory, callMemory]
    refine evalSim_bind (evalSim_pointer L _ first) fun q q' => ?_
    have given : ∀ n : Nat, C.EvalSim ((p ∧ C.valuesAll (a :: rest)
        ((a :: rest).map (rename C.across))) ∧ C.places w q q') w w C.values
        (pure (.u32 n.toUInt32)) (pure (.u32 n.toUInt32)) :=
      fun n => evalSim_pure fun _ => plain fun _ => Value.rename_u32 _
    have counted := evalSim_bind_eq (evalSim_assuming (L.countAt w q q') fun hp => hp.2) given
    rwa [bind_assoc, bind_assoc] at counted
  by_cases h₂ : name = "atomicLoad" ∨ name = "workgroupUniformLoad"
  · obtain rfl | rfl := h₂ <;> rw [callMemory, callMemory] <;>
      exact evalSim_bind (evalSim_pointer L _ first) fun q q' => evalSim_readPlace L fun h => h.2
  by_cases h₃ : name = "textureDimensions"
  · subst h₃
    rw [callMemory, callMemory]
    refine evalSim_bind_eq (evalSim_texture L first) fun t => evalSim_pure fun _ => plain fun ρ => ?_
    unfold dimensions
    split <;> simp [Function.comp_def]
  by_cases h₄ : name = "textureNumLayers"
  · subst h₄
    rw [callMemory, callMemory]
    exact evalSim_bind_eq (evalSim_texture L first) fun t =>
      evalSim_pure fun _ => plain fun _ => Value.rename_u32 _
  by_cases h₅ : name = "textureLoad"
  · subst h₅
    rw [callMemory, callMemory]
    exact evalSim_textureLoad L first others
  by_cases h₆ : name = "textureStore"
  · subst h₆
    rw [callMemory, callMemory]
    exact evalSim_textureStore L first others
  have left : name ∈ memoryFunctions → name = "atomicStore" ∨ name = "atomicCompareExchangeWeak" := by
    simp only [memoryFunctions, List.mem_cons, h₁, not_or.1 h₂, h₃, h₄, h₅, h₆, List.not_mem_nil, false_or,
      or_false, imp_self]
  have named : name ∉ memoryFunctions ∨ name = "atomicStore" ∨ name = "atomicCompareExchangeWeak" :=
    not_or_of_imp left
  rcases rest with _ | ⟨b, rest⟩
  · rw [List.map_nil, callMemory_one named, callMemory_one named]
    exact evalSim_throw L _
  have second : p ∧ C.valuesAll (a :: b :: rest) ((a :: b :: rest).map (rename C.across)) →
      C.values b (b.rename C.across) := by
    rintro ⟨-, -, h⟩
    exact ⟨rfl, (List.cons.inj (List.cons.inj h).2).1⟩
  rw [List.map_cons]
  by_cases h₇ : name = "atomicStore"
  · subst h₇
    rw [callMemory, callMemory]
    refine evalSim_bind (evalSim_pointer L _ first) fun q q' => ?_
    refine evalSim_bind (evalSim_writePlace L (fun h => h.2) fun h => second h.1) fun _ _ => ?_
    exact evalSim_pure fun _ => plain fun _ => Value.rename_void
  by_cases h₈ : name = "atomicCompareExchangeWeak"
  · subst h₈
    rcases rest with _ | ⟨c, rest⟩
    · rw [List.map_nil, callMemory_exchange_two, callMemory_exchange_two]
      exact evalSim_throw L _
    · rw [List.map_cons, callMemory, callMemory]
      refine evalSim_bind (evalSim_pointer L _ first) fun q q' => ?_
      refine evalSim_compareExchange L (fun h => h.2) (fun h => second h.1) fun h => ?_
      obtain ⟨⟨-, -, h⟩, -⟩ := h
      exact ⟨rfl, (List.cons.inj (List.cons.inj (List.cons.inj h).2).2).1⟩
  have other : name ∉ memoryFunctions := fun h => (left h).elim h₇ h₈
  cases hu : atomicUpdate? name with
  | none =>
    rw [callMemory_unsupported other hu, callMemory_unsupported other hu]
    exact evalSim_throw L _
  | some update =>
    rw [callMemory_update other hu, callMemory_update other hu]
    refine evalSim_bind (evalSim_pointer L _ first) fun q q' => ?_
    exact evalSim_atomic L (fun ρ => natural_atomicUpdate? hu ρ) (fun h => h.2) fun h => second h.1

/-- A call of a built-in function. -/
theorem evalSim_callBuiltin (name : String) {vs vs' : List Value} (hs : p → C.valuesAll vs vs') :
    C.EvalSim p w w C.values (callBuiltin name vs) (callBuiltin name vs') := by
  refine evalSim_of_valuesAll hs ?_
  unfold callBuiltin
  rw [List.length_map]
  refine evalSim_bind_eq (evalSim_lift L fun _ => ?_) fun _ => ?_
  · cases Builtin.checkArity name vs.length with
    | error e => rfl
    | ok u => exact ⟨u, rfl, rfl⟩
  · have hnone := Library.natural_call? (ρ := C.across) name vs
    cases hc : Library.call? name vs with
    | none =>
      rw [hc] at hnone
      rw [hnone]
      exact evalSim_callMemory L name fun hp => hp.2
    | some r =>
      rw [hc] at hnone
      rw [hnone]
      refine evalSim_lift L fun hp => ?_
      obtain ⟨h, -⟩ | ⟨r₁, r₁', h₁, h₂, halike⟩ := alike_call? name hp.2
      · rw [hc] at h
        cases h
      · rw [hc] at h₁
        rw [hnone] at h₂
        cases h₁
        cases h₂
        exact halike

end

end Eval

end Wgsl
