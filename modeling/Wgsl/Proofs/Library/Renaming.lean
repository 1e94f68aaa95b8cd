import Wgsl.Library
import Wgsl.Proofs.Value.Renaming

/-! # The library under renaming

The functions of the built-in library read numbers, or hand their arguments on. None looks into a
pointer or a texture, so each commutes with a change of names.
-/

namespace Wgsl.Library
set_option autoImplicit false

open Number (Single)
open Value (rename Natural Natural₂)

variable {ρ : Renaming}

/-! ## Steps that hand names on -/

theorem natural_bind {x x' : Run Value} {f f' : Value → Run Value} (hx : x' = rename ρ <$> x)
    (hf : ∀ v, f' (v.rename ρ) = rename ρ <$> f v) : (x' >>= f') = rename ρ <$> (x >>= f) := by
  subst hx
  cases x with
  | error e => rfl
  | ok v => exact hf v

theorem natural_bind_invariant {α : Type} {x x' : Run α} {f f' : α → Run Value} (hx : x' = x)
    (hf : ∀ a, f' a = rename ρ <$> f a) : (x' >>= f') = rename ρ <$> (x >>= f) := by
  subst hx
  cases x' with
  | error e => rfl
  | ok a => exact hf a

theorem plain_ok {v : Value} (h : v.rename ρ = v) : (pure v : Run Value) = rename ρ <$> pure v :=
  congrArg Except.ok h.symm

theorem natural_ite {p : Prop} [Decidable p] {x x' y y' : Run Value} (hx : x' = rename ρ <$> x)
    (hy : y' = rename ρ <$> y) : (if p then x' else y') = rename ρ <$> (if p then x else y) := by
  split
  · exact hx
  · exact hy

/-! ## Bits -/

theorem natural_onWord (f : UInt32 → UInt32) : Natural ρ (onWord f) := by
  intro v
  cases v <;> simp [onWord, notInteger, Value.expected, Value.map_throw]

theorem natural_overWords (f : UInt32 → UInt32) : Natural ρ (overWords f) :=
  (natural_onWord f).mapComponents

theorem natural_firstLeadingBit : Natural ρ firstLeadingBit := by
  intro v
  cases v <;> simp [firstLeadingBit, notInteger, Value.expected, Value.map_throw]

theorem natural_extractBits (offset count : UInt32) : Natural ρ (extractBits offset count) := by
  intro v
  cases v <;> simp [extractBits, notInteger, Value.expected, Value.map_throw]

theorem natural_insertBits (offset count : UInt32) : Natural₂ ρ (insertBits offset count) := by
  intro v new
  unfold insertBits
  refine natural_bind_invariant (Value.unsigned_rename v) fun kept => ?_
  refine natural_bind_invariant (Value.unsigned_rename new) fun bits => ?_
  cases v <;> simp

/-! ## Numbers -/

theorem natural_overSingles (f : Single → Single) : Natural ρ (overSingles f) :=
  Natural.mapComponents (Value.natural_of_invariant Value.number_rename fun _ => Value.rename_f32 _)

theorem natural_overPairs (f : Single → Single → Single) : Natural₂ ρ (overPairs f) := by
  refine Value.natural_zipComponents fun x y => ?_
  refine natural_bind_invariant (Value.number_rename x) fun a => ?_
  exact natural_bind_invariant (Value.number_rename y) fun b => plain_ok (Value.rename_f32 _)

theorem natural_componentAt (length i : Nat) : Natural ρ (componentAt length i) := by
  intro v
  cases v with
  | vector items =>
    simp only [componentAt, Value.rename_vector, List.getElem?_map, List.length_map]
    cases items[i]? <;> rfl
  | _ => simp [componentAt]

theorem natural_zipThree {f : Value → Value → Value → Run Value}
    (hf : ∀ a b c, f (a.rename ρ) (b.rename ρ) (c.rename ρ) = rename ρ <$> f a b c) (a b c : Value) :
    zipThree f (a.rename ρ) (b.rename ρ) (c.rename ρ) = rename ρ <$> zipThree f a b c := by
  unfold zipThree
  simp only [Value.vectorLength?_rename]
  cases longest [a.vectorLength?, b.vectorLength?, c.vectorLength?] with
  | none => exact hf a b c
  | some length =>
    simp only [Run.values]
    rw [← Value.vector_map_natural]
    congr 1
    refine Value.valuesFrom_natural (fun i => ?_) length 0 []
    refine natural_bind (natural_componentAt length i a) fun x => ?_
    refine natural_bind (natural_componentAt length i b) fun y => ?_
    exact natural_bind (natural_componentAt length i c) fun z => hf x y z

theorem natural_overTriples (f : Single → Single → Single → Single) (a b c : Value) :
    overTriples f (a.rename ρ) (b.rename ρ) (c.rename ρ) = rename ρ <$> overTriples f a b c := by
  refine natural_zipThree (fun x y z => ?_) a b c
  refine natural_bind_invariant (Value.number_rename x) fun _ => ?_
  refine natural_bind_invariant (Value.number_rename y) fun _ => ?_
  exact natural_bind_invariant (Value.number_rename z) fun _ => plain_ok (Value.rename_f32 _)

theorem natural_abs : Natural ρ abs := by
  intro v
  cases v <;> simp [abs, Value.number, Value.expected, Value.map_throw]

theorem natural_sign : Natural ρ sign := by
  intro v
  cases v <;> simp [sign, Value.number, Value.expected, Value.map_throw]

theorem resultSuffix_rename (v : Value) : resultSuffix (v.rename ρ) = resultSuffix v := by
  simp [resultSuffix]

theorem natural_frexp : Natural ρ frexp := by
  intro v
  unfold frexp
  rw [resultSuffix_rename]
  refine natural_bind (natural_overSingles _ v) fun fract => ?_
  have exponents : Natural ρ (Value.mapComponents fun c =>
      (fun x => Value.i32 (splitSingle x).2) <$> c.number) :=
    Natural.mapComponents (Value.natural_of_invariant Value.number_rename fun _ => Value.rename_i32 _)
  refine natural_bind (exponents v) fun exp => ?_
  simp

theorem natural_modf : Natural ρ modf := by
  intro v
  unfold modf
  rw [resultSuffix_rename]
  refine natural_bind (natural_overSingles _ v) fun fract => ?_
  refine natural_bind (natural_overSingles _ v) fun whole => ?_
  simp

theorem natural_widened : Natural₂ ρ widened := by
  intro chosen other
  have hu := Value.natural_convert (ρ := ρ) .u32 chosen
  have hf := Value.natural_convert (ρ := ρ) .f32 chosen
  cases chosen with
  | i32 n =>
    cases other with
    | u32 _ => exact hu
    | f32 _ => exact hf
    | _ => simp [widened]
  | u32 n =>
    cases other with
    | f32 _ => exact hf
    | _ => simp [widened]
  | _ => simp [widened]

theorem natural_extremeSingle (greater : Bool) : Natural₂ ρ (extremeSingle greater) := by
  intro a b
  unfold extremeSingle
  refine natural_bind_invariant (Value.number_rename a) fun x => ?_
  refine natural_bind_invariant (Value.number_rename b) fun y => ?_
  refine natural_ite (plain_ok (Value.rename_f32 _)) ?_
  exact natural_ite (natural_widened a b) (natural_widened b a)

theorem natural_extremeInteger (greater : Bool) : Natural₂ ρ (extremeInteger greater) := by
  intro a b
  unfold extremeInteger
  refine natural_bind_invariant (Value.integer_rename a) fun x => ?_
  refine natural_bind_invariant (Value.integer_rename b) fun y => ?_
  exact natural_ite (natural_widened a b) (natural_widened b a)

theorem extreme_eq_single (greater : Bool) {a b : Value} (h : (∃ x, a = .f32 x) ∨ ∃ x, b = .f32 x) :
    extreme greater a b = extremeSingle greater a b := by
  unfold extreme
  split
  · rfl
  · rfl
  · rename_i ha hb
    obtain ⟨x, rfl⟩ | ⟨x, rfl⟩ := h
    · exact absurd rfl (ha x)
    · exact absurd rfl (hb x)

theorem extreme_eq_integer (greater : Bool) {a b : Value} (ha : ∀ x, a ≠ .f32 x)
    (hb : ∀ x, b ≠ .f32 x) : extreme greater a b = extremeInteger greater a b := by
  unfold extreme
  split
  · exact absurd rfl (ha _)
  · exact absurd rfl (hb _)
  · rfl

theorem rename_eq_f32 {v : Value} {x : Single} : v.rename ρ = .f32 x ↔ v = .f32 x := by
  cases v <;> simp

theorem natural_extreme (greater : Bool) : Natural₂ ρ (extreme greater) := by
  intro a b
  by_cases h : (∃ x, a = .f32 x) ∨ ∃ x, b = .f32 x
  · rw [extreme_eq_single greater h, ← natural_extremeSingle greater a b]
    apply extreme_eq_single
    simpa only [rename_eq_f32] using h
  · rw [not_or, not_exists, not_exists] at h
    rw [extreme_eq_integer greater h.1 h.2, ← natural_extremeInteger greater a b]
    apply extreme_eq_integer
    · simpa only [ne_eq, rename_eq_f32] using h.1
    · simpa only [ne_eq, rename_eq_f32] using h.2

theorem natural_max : Natural₂ ρ max := Value.natural_zipComponents (natural_extreme true)

theorem natural_min : Natural₂ ρ min := Value.natural_zipComponents (natural_extreme false)

theorem natural_clamp (v lo hi : Value) :
    clamp (v.rename ρ) (lo.rename ρ) (hi.rename ρ) = rename ρ <$> clamp v lo hi :=
  natural_bind (natural_max v lo) fun u => natural_min u hi

theorem natural_ldexp : Natural₂ ρ ldexp := by
  refine Value.natural_zipComponents fun x n => ?_
  refine natural_bind_invariant (Value.number_rename x) fun _ => ?_
  exact natural_bind_invariant (Value.signed_rename n) fun _ => plain_ok (Value.rename_f32 _)

theorem natural_select (f t condition : Value) :
    select (f.rename ρ) (t.rename ρ) (condition.rename ρ) = rename ρ <$> select f t condition := by
  have one : ∀ c f t : Value, (do return if ← (c.rename ρ).truth then t.rename ρ else f.rename ρ) =
      rename ρ <$> (do return if ← c.truth then t else f : Run Value) := by
    intro c f t
    refine natural_bind_invariant (Value.truth_rename c) fun b => ?_
    cases b <;> rfl
  cases condition with
  | vector conditions =>
    simp only [select, Value.rename_vector, Value.components_rename, List.length_map]
    refine natural_ite ?_ rfl
    rw [← Value.vector_map_natural, List.zip_map, List.zip_map]
    congr 1
    exact Value.mapM_map_natural (fun p => one p.1 p.2.1 p.2.2) _
  | _ => exact one _ f t

theorem mapM_truth_components (v : Value) :
    (v.rename ρ).components.mapM Value.truth = v.components.mapM Value.truth := by
  rw [Value.components_rename, Value.mapM_map_invariant Value.truth_rename]

theorem natural_all : Natural ρ all := fun v =>
  natural_bind_invariant (mapM_truth_components v) fun _ => plain_ok (Value.rename_bool _)

theorem natural_any : Natural ρ any := fun v =>
  natural_bind_invariant (mapM_truth_components v) fun _ => plain_ok (Value.rename_bool _)

/-! ## Geometry -/

theorem natural_dot : Natural₂ ρ dot := by
  intro a b
  unfold dot
  refine natural_bind (Value.natural_binary .multiply a b) fun product => ?_
  rw [Value.components_rename]
  cases product.components with
  | nil => rfl
  | cons first rest =>
    simp only [List.map_cons]
    induction rest generalizing first with
    | nil => rfl
    | cons next rest ih =>
      rw [List.map_cons, List.foldlM_cons, List.foldlM_cons]
      exact natural_bind (Value.natural_binary .add first next) fun v => ih v

theorem length_rename (v : Value) : length (v.rename ρ) = length v := by
  rw [length, length, Value.numbers_rename]

theorem distance_rename (a b : Value) : distance (a.rename ρ) (b.rename ρ) = distance a b := by
  unfold distance
  rw [Value.natural_binary .subtract a b]
  cases Value.binary .subtract a b with
  | error e => rfl
  | ok v => exact length_rename v

theorem natural_normalize : Natural ρ normalize := fun v =>
  natural_bind_invariant (length_rename v) fun _ => natural_overSingles _ v

theorem natural_cross : Natural₂ ρ cross := by
  intro a b
  unfold cross
  refine natural_bind_invariant (Value.numbers_rename a) fun xs => ?_
  refine natural_bind_invariant (Value.numbers_rename b) fun ys => ?_
  split <;> simp [Value.map_throw]

theorem natural_reflect : Natural₂ ρ reflect := by
  intro v normal
  unfold reflect
  refine natural_bind (natural_dot normal v) fun d => ?_
  refine natural_bind_invariant (Value.number_rename d) fun d => ?_
  refine natural_bind ?_ fun scaled => Value.natural_binary .subtract v scaled
  have h := Value.natural_binary (ρ := ρ) .multiply normal (.f32 (two * d))
  rwa [Value.rename_f32] at h

theorem natural_faceForward (v incident normal : Value) :
    faceForward (v.rename ρ) (incident.rename ρ) (normal.rename ρ) =
      rename ρ <$> faceForward v incident normal := by
  unfold faceForward
  refine natural_bind (natural_dot incident normal) fun d => ?_
  refine natural_bind_invariant (Value.number_rename d) fun d => ?_
  exact natural_ite rfl (Value.natural_unary .negate v)

theorem natural_refract (v normal : Value) (eta : Single) :
    refract (v.rename ρ) (normal.rename ρ) eta = rename ρ <$> refract v normal eta := by
  have scaled : ∀ (u : Value) (x : Single), Value.binary .multiply (u.rename ρ) (.f32 x) =
      rename ρ <$> Value.binary .multiply u (.f32 x) := by
    intro u x
    have h := Value.natural_binary (ρ := ρ) .multiply u (.f32 x)
    rwa [Value.rename_f32] at h
  unfold refract
  refine natural_bind (natural_dot normal v) fun d => ?_
  refine natural_bind_invariant (Value.number_rename d) fun d => ?_
  refine natural_ite (natural_overSingles _ v) ?_
  refine natural_bind (scaled v _) fun a => ?_
  exact natural_bind (scaled normal _) fun b => Value.natural_binary .subtract a b

theorem natural_transpose : Natural ρ transpose := by
  intro v
  cases v <;> simp [transpose, Value.map_throw]

theorem natural_determinant : Natural ρ determinant := by
  intro v
  cases v with
  | matrix columns =>
    simp only [determinant, Value.rename_matrix]
    exact natural_ite (plain_ok (Value.rename_f32 _)) rfl
  | _ => simp [determinant, Value.map_throw]

/-! ## Packing -/

theorem natural_pack (width : UInt32) (f : Single → UInt32) : Natural ρ (pack width f) := fun v =>
  natural_bind_invariant (Value.numbers_rename v) fun _ => plain_ok (Value.rename_u32 _)

theorem natural_packIntegers {f : Value → Run UInt32} (hf : ∀ v, f (v.rename ρ) = f v) :
    Natural ρ (packIntegers f) := by
  intro v
  unfold packIntegers
  rw [Value.components_rename, Value.mapM_map_invariant hf]
  exact natural_bind_invariant rfl fun _ => plain_ok (Value.rename_u32 _)

theorem natural_unpack (width : UInt32) {f : UInt32 → Value} (hf : ∀ n, (f n).rename ρ = f n) :
    Natural ρ (unpack width f) := by
  intro v
  refine natural_bind_invariant (Value.unsigned_rename v) fun n => ?_
  refine plain_ok ?_
  simp [Function.comp_def, hf]

theorem clampedSigned_rename (v : Value) : clampedSigned (v.rename ρ) = clampedSigned v := by
  rw [clampedSigned, clampedSigned, Value.signed_rename]

theorem clampedUnsigned_rename (v : Value) : clampedUnsigned (v.rename ρ) = clampedUnsigned v := by
  rw [clampedUnsigned, clampedUnsigned, Value.unsigned_rename]

theorem natural_packing? (name : String) {f : Value → Run Value} (h : packing? name = some f) :
    Natural ρ f := by
  unfold packing? at h
  split at h <;> cases h
  all_goals
    first
    | exact natural_pack _ _
    | exact natural_packIntegers Value.unsigned_rename
    | exact natural_packIntegers clampedSigned_rename
    | exact natural_packIntegers clampedUnsigned_rename
    | exact natural_unpack _ fun _ => by simp [snorm, unorm]

theorem natural_dotUnsignedBytes : Natural₂ ρ dotUnsignedBytes := fun a b =>
  natural_bind_invariant (Value.unsigned_rename a) fun _ =>
    natural_bind_invariant (Value.unsigned_rename b) fun _ => plain_ok (Value.rename_u32 _)

theorem natural_dotSignedBytes : Natural₂ ρ dotSignedBytes := fun a b =>
  natural_bind_invariant (Value.unsigned_rename a) fun _ =>
    natural_bind_invariant (Value.unsigned_rename b) fun _ => plain_ok (Value.rename_i32 _)

/-! ## All functions -/

theorem groupKind_rename (v : Value) : groupKind (v.rename ρ) = groupKind v := by
  rw [groupKind, groupKind, Value.scalarKind?_rename]

theorem natural_exclusiveAdd :
    Natural ρ (Value.mapComponents fun v => pure (.zero (groupKind v))) := by
  refine Natural.mapComponents fun v => ?_
  rw [groupKind_rename]
  exact plain_ok (Value.rename_zero _)

theorem natural_exclusiveMul :
    Natural ρ (Value.mapComponents fun v => (Value.i32 1).convert (groupKind v)) := by
  refine Natural.mapComponents fun v => ?_
  have h := Value.natural_convert (ρ := ρ) (groupKind v) (.i32 1)
  rw [Value.rename_i32] at h
  rw [groupKind_rename]
  exact h

theorem natural_ballot (a : Value) :
    (do let b ← (a.rename ρ).truth; return .vector [.u32 (if b then 1 else 0), .u32 0, .u32 0, .u32 0]) =
      rename ρ <$> (do let b ← a.truth; return .vector [.u32 (if b then 1 else 0), .u32 0, .u32 0, .u32 0] :
        Run Value) :=
  natural_bind_invariant (Value.truth_rename a) fun _ => plain_ok (by simp)

theorem natural_otherUnary? (name : String) (a : Value) :
    otherUnary? name (a.rename ρ) = (otherUnary? name a).map (rename ρ <$> ·) := by
  unfold otherUnary?
  split <;> simp only [Option.map_some, Option.map_none, Option.some.injEq]
  · exact natural_abs.mapComponents a
  · exact natural_sign.mapComponents a
  · exact natural_all a
  · exact natural_any a
  · exact natural_frexp a
  · exact natural_modf a
  · exact natural_overWords _ a
  · exact natural_overWords _ a
  · exact natural_overWords _ a
  · exact natural_overWords _ a
  · exact natural_firstLeadingBit.mapComponents a
  · exact natural_overWords _ a
  · exact Value.natural_of_invariant length_rename (fun _ => Value.rename_f32 _) a
  · exact natural_normalize a
  · exact natural_transpose a
  · exact natural_determinant a
  · exact plain_ok (Value.rename_u32 _)
  · exact plain_ok (Value.rename_u32 _)
  · exact natural_exclusiveAdd a
  · exact natural_exclusiveMul a
  · exact natural_ballot a
  all_goals rfl

theorem natural_unary? (name : String) (a : Value) :
    unary? name (a.rename ρ) = (unary? name a).map (rename ρ <$> ·) := by
  unfold unary?
  cases singleFunction? name with
  | some f => exact congrArg some (natural_overSingles f a)
  | none =>
    cases h : packing? name with
    | some f => exact congrArg some (natural_packing? name h a)
    | none => exact natural_otherUnary? name a

theorem natural_binary? (name : String) (a b : Value) :
    binary? name (a.rename ρ) (b.rename ρ) = (binary? name a b).map (rename ρ <$> ·) := by
  unfold binary?
  split <;> simp only [Option.map_some, Option.map_none, Option.some.injEq]
  · exact natural_overPairs _ a b
  · exact natural_overPairs _ a b
  · exact natural_overPairs _ a b
  · exact natural_ldexp a b
  · exact natural_max a b
  · exact natural_min a b
  · exact natural_dot a b
  · rw [distance_rename, Value.plain_map fun _ => Value.rename_f32 _]
  · exact natural_cross a b
  · exact natural_reflect a b
  · exact natural_dotUnsignedBytes a b
  · exact natural_dotSignedBytes a b
  all_goals rfl

theorem natural_ternary? (name : String) (a b c : Value) :
    ternary? name (a.rename ρ) (b.rename ρ) (c.rename ρ) =
      (ternary? name a b c).map (rename ρ <$> ·) := by
  unfold ternary?
  split <;> simp only [Option.map_some, Option.map_none, Option.some.injEq]
  · exact natural_clamp a b c
  · exact natural_overTriples _ a b c
  · exact natural_overTriples _ a b c
  · exact natural_overTriples _ a b c
  · exact natural_select a b c
  · exact natural_faceForward a b c
  · exact natural_bind_invariant (Value.number_rename c) fun eta => natural_refract a b eta
  · refine natural_bind_invariant (Value.unsigned_rename b) fun offset => ?_
    refine natural_bind_invariant (Value.unsigned_rename c) fun count => ?_
    exact (natural_extractBits offset count).mapComponents a

theorem natural_quaternary? (name : String) (a b c d : Value) :
    quaternary? name (a.rename ρ) (b.rename ρ) (c.rename ρ) (d.rename ρ) =
      (quaternary? name a b c d).map (rename ρ <$> ·) := by
  unfold quaternary?
  split <;> simp only [Option.map_some, Option.map_none, Option.some.injEq]
  refine natural_bind_invariant (Value.unsigned_rename c) fun offset => ?_
  refine natural_bind_invariant (Value.unsigned_rename d) fun count => ?_
  exact Value.natural_zipComponents (natural_insertBits offset count) a b

theorem natural_nullary? (name : String) : nullary? name = (nullary? name).map (rename ρ <$> ·) := by
  unfold nullary?
  split <;> simp

/-- Every function of the library hands names on. -/
theorem natural_call? (name : String) (args : List Value) :
    call? name (args.map (rename ρ)) = (call? name args).map (rename ρ <$> ·) := by
  rcases args with _ | ⟨a, _ | ⟨b, _ | ⟨c, _ | ⟨d, _ | ⟨e, rest⟩⟩⟩⟩⟩
  · exact natural_nullary? name
  · exact natural_unary? name a
  · exact natural_binary? name a b
  · exact natural_ternary? name a b c
  · exact natural_quaternary? name a b c d
  · rfl

end Wgsl.Library
