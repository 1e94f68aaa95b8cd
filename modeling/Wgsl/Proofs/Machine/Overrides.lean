import Wgsl.Proofs.Machine.Consts
import Wgsl.Proofs.Reflect.Overrides

/-! # The values of overrides

A host may set an override by its number. The number that it knows is the one that reflection gives,
the value that the argument of the attribute folds to. A start compares texts: it takes the argument
as it is written, if it is a name or a literal.

* `Attribute.IsPlain`: the number is written as it is spelled.
* `VarDecl.OfKind`: the kind of an override.
* `Eval.run_declareOverride`: a number of the host is bound in the kind of the override.
* `Exec.override_by_number`: what a host sets by a reflected number that is written plainly arrives.
* `Exec.override_unheard`: what it sets by one that is written as a sum does not.
-/

namespace Wgsl
set_option autoImplicit false

/-! ## Numbers and their texts -/

/-- The first argument is an integer without a suffix. -/
def Attribute.IsPlain (a : Attribute) : Prop := ∃ k value, a.args.head? = some (.literal k (.int value none))

variable {p : Program} {s : Shader} {l : Layouts} {m m₀ m₁ : Machine} {config : Config}
  {before after : List Declaration} {v : VarDecl} {o : OverrideInfo} {a : Attribute} {n : Nat} {x : Float}
  {kind : ScalarKind}

/-- The text of an integer that folds to a natural number is that of the number. -/
theorem Literal.text_eq {value : Int64} {w : UInt32} (h : (Constant.int value).toUInt32? = some w) :
    (Literal.int value none).text = toString w.toNat := by
  unfold Constant.toUInt32? at h
  dsimp only [Constant.toInt64] at h
  split at h
  case isFalse => cases h
  case isTrue inRange =>
    obtain ⟨nonneg, small⟩ := inRange
    cases h
    have small : value.toInt.toNat < UInt32.size := by omega
    have same : value.toInt.toNat.toUInt32.toNat = value.toInt.toNat := Nat.mod_eq_of_lt small
    obtain ⟨k, hk⟩ := Int.eq_ofNat_of_zero_le nonneg
    have text : (Literal.int value none).text = toString value.toInt := String.append_empty
    rw [same, text, hk]
    rfl

/-- The reflected number of an override is the text of a plain argument. -/
theorem Reflection.DescribesOverride.text_id (h : Reflection.DescribesOverride l v o)
    (ha : Attribute.find? v.attributes "id" = some a) (hplain : a.IsPlain) (hid : o.id = some n) :
    a.firstArgText? = some (toString n) := by
  obtain ⟨k, value, harg⟩ := hplain
  obtain ⟨w?, hfold, hw⟩ := h.id_eq ha harg
  have folded : (Constant.int value).toUInt32? = w? := Except.ok.inj hfold
  rw [hid] at hw
  obtain ⟨w, rfl, rfl⟩ := Option.map_eq_some_iff.1 hw.symm
  obtain ⟨rest, hargs⟩ := List.head?_eq_some_iff.1 harg
  rw [Attribute.firstArgText?, hargs]
  exact congrArg some (Literal.text_eq folded)

/-- Without a number for its name, an override gets the one for the text of its number. -/
theorem Config.overrideValue?_of_text (ha : Attribute.find? v.attributes "id" = some a)
    (htext : a.firstArgText? = some (toString n)) (hname : Table.find? config v.name = none)
    (hx : Table.find? config (toString n) = some x) : config.overrideValue? v = some x := by
  unfold overrideValue?
  rw [hname, ha, Option.bind_some, htext]
  exact hx

/-! ## Binding an override -/

namespace Value

theorem convertScalar_ofDouble (x : Float) (kind : ScalarKind) :
    convertScalar kind (ofDouble x kind) = .ok (ofDouble x kind) := by
  cases kind with
  | bool => rfl
  | i32 => exact congrArg (fun n => Except.ok (i32 n)) (Int32.ofInt_toInt _)
  | u32 => exact congrArg (fun n => Except.ok (u32 n)) UInt32.ofNat_toNat
  | f32 => rfl
  | f16 => rfl

/-- A number of the host in the kind of a type that is no vector has the shape of the type. -/
theorem coerceTo_ofDouble {t : TypeInfo} (hkind : t.scalarKind? = some kind)
    (hlength : t.vectorLength? = none) (x : Float) :
    (ofDouble x kind).coerceTo t = .ok (ofDouble x kind) := by
  have single : (ofDouble x kind).vectorLength? = none := by cases kind <;> rfl
  have converted : (ofDouble x kind).convert kind = .ok (ofDouble x kind) := by
    refine Eq.trans ?_ (convertScalar_ofDouble x kind)
    cases kind <;> rfl
  unfold coerceTo
  rw [hkind, single, hlength]
  dsimp only
  split
  · exact converted
  · rfl

end Value

/-- The kind of an override that is declared on a machine: that of its type, which is no vector, or
that of what its default evaluates to. -/
def VarDecl.OfKind (s : Shader) (m : Machine) (v : VarDecl) (o : OverrideInfo) (kind : ScalarKind) : Prop :=
  (∃ type info, v.type = some type ∧ o.type = some info ∧ info.vectorLength? = none ∧
    info.scalarKind? = some kind) ∨
  ∃ default d m', v.type = none ∧ v.value = some default ∧
    (Eval.expr s (Eval.call s) ScopeArena.root default).run m = .ok (.ok d, m') ∧
    d.scalarKind? = some kind

namespace Eval

variable {α β : Type}

theorem run_bind_of {y : Eval α} {f : α → Eval β} {b : α} (h : y.run m = .ok (.ok b, m₁)) :
    (y >>= f).run m = (f b).run m₁ := by
  change (y.run m >>= _) = _
  rw [h]
  rfl

/-- A type that has been laid out is not laid out again. -/
theorem gives_typeInfo {type : TypeExpr} {info : TypeInfo}
    (h : (LayoutM.typeInfo type).run m.layouts = .ok (info, m.layouts)) :
    (typeInfo type).Gives m (.ok info) := by
  change Except.map _ (Except.map _ ((LayoutM.typeInfo type).run m.layouts)) = _
  rw [h]
  rfl

/-- A number of the host is bound in the kind of the override. -/
theorem run_declareOverride (ho : Reflection.DescribesOverride l v o) (hl : l.Extends m.layouts)
    (hx : config.overrideValue? v = some x) (hkind : v.OfKind s m o kind) : ∃ m' : Machine,
    (declareOverride s config v).run m =
      .ok (.ok (), m'.bind ScopeArena.root v.name (.value (.ofDouble x kind))) := by
  have value : overrideValue s config v =
      (do return .ofDouble x ((← overrideKind? s v).getD .f32)) := by
    unfold overrideValue
    rw [hx]
  -- once the kind is known, all that is left is to give the number the shape of the type
  have given {m' : Machine} (h : (overrideKind? s v).run m = .ok (.ok (some kind), m')) :
      (overrideValue s config v).run m = .ok (.ok (.ofDouble x kind), m') := by
    rw [value]
    exact (run_bind_of h).trans rfl
  unfold declareOverride
  obtain ⟨type, info, htype, hinfo, hlength, hkind⟩ | ⟨default, d, m', htype, hdefault, hrun, hkind⟩ :=
    hkind
  · obtain ⟨info', hinfo', hlaid⟩ := ho.typeInfo hl htype
    obtain rfl : info = info' := Option.some.inj (hinfo.symm.trans hinfo')
    have laid := gives_typeInfo hlaid
    have known : (overrideKind? s v).Gives m (.ok (some kind)) := by
      unfold overrideKind?
      rw [htype]
      refine laid.bind ?_
      rw [hkind]
      exact gives_pure _
    refine ⟨m, (run_bind_of (given known)).trans ?_⟩
    rw [htype]
    refine (run_bind_of laid).trans ?_
    rw [Value.coerceTo_ofDouble hkind hlength]
    rfl
  · have known : (overrideKind? s v).run m = .ok (.ok (some kind), m') := by
      unfold overrideKind?
      rw [htype, hdefault]
      refine (run_bind_of hrun).trans ?_
      rw [hkind]
      rfl
    refine ⟨m', (run_bind_of (given known)).trans ?_⟩
    rw [htype]
    rfl

end Eval

/-! ## After a start -/

namespace Exec

/-- Declarations that leave a name of the root scope bound as it is. -/
def Spares (s : Shader) (config : Config) (name : String) (ds : List Declaration) (m : Machine) : Prop :=
  ∀ m₁, ds.forM (declaration s config) m = .ok ((), m₁) →
    m₁.scopes.findIn? ScopeArena.root name = m.scopes.findIn? ScopeArena.root name

/-- A start that has come to an end, taken apart at one declaration. -/
theorem run_split {d : Declaration} (hrun : (before ++ d :: after).forM (declaration s config) m₀ = .ok ((), m)) :
    ∃ m₁ m₂, before.forM (declaration s config) m₀ = .ok ((), m₁) ∧
      declaration s config d m₁ = .ok ((), m₂) ∧ after.forM (declaration s config) m₂ = .ok ((), m) := by
  rw [List.forM_eq_forM, List.forM_append] at hrun
  obtain ⟨_, m₁, hbefore, hrun⟩ := bind_ok hrun
  rw [List.forM_cons] at hrun
  obtain ⟨_, m₂, hfirst, hafter⟩ := bind_ok hrun
  exact ⟨m₁, m₂, hbefore, hfirst, hafter⟩

/-- Declarations forget no layouts and leave the root scope open. -/
theorem opens_declarations (ds : List Declaration) (hdepth : 0 < m.scopes.depth)
    (hrun : ds.forM (declaration s config) m = .ok ((), m₁)) :
    m.layouts.Extends m₁.layouts ∧ 0 < m₁.scopes.depth := by
  have carrying : Conduct.carrying.obeys (some ScopeArena.root) (ds.forM (declaration s config)) :=
    Conduct.obeys_forM fun d _ => Conduct.inside_declaration
      (Conduct.admitsShader_of_all (fun _ => trivial) s) fun x _ => x.typed_of_all fun _ => trivial
  have stacking : Conduct.stack.obeys (some ScopeArena.root) (ds.forM (declaration s config)) :=
    Conduct.obeys_forM fun d _ => Conduct.inside_declaration
      (Conduct.admitsShader_of_all (fun _ => trivial) s) fun x _ => x.typed_of_all fun _ => trivial
  have carried : m.Carries m₁ := carrying m () m₁ hrun
  have stack := stacking m () m₁ hdepth hrun
  exact ⟨carried.layouts, stack.depth ▸ hdepth⟩

/-- A host that sets an override by the number that reflection gives, and not by its name, finds that
number in the root scope, in the kind of the override, as long as the attribute spells the number
plainly. It is there as soon as the override is declared, and after the start unless a later
declaration has bound or assigned the name anew. -/
theorem override_by_number (hs : Shader.ofProgram p = .ok (s, l)) {calls : List Call}
    (hcalls : calls.forM (Call.run s) { layouts := l } = .ok ((), m₀))
    (hstart : start s config m₀ = .ok ((), m))
    (hd : p.declarations = before ++ .value .override v :: after)
    (ho : (v, o) ∈ (p.values .override).zip s.reflection.overrides) (hid : o.id = some n)
    (ha : Attribute.find? v.attributes "id" = some a) (hplain : a.IsPlain)
    (hname : Table.find? config v.name = none) (hx : Table.find? config (toString n) = some x) :
    ∃ m₁ m₂, before.forM (declaration s config) m₀.reset = .ok ((), m₁) ∧
      declaration s config (.value .override v) m₁ = .ok ((), m₂) ∧
      after.forM (declaration s config) m₂ = .ok ((), m) ∧
      ∀ kind, v.OfKind s m₁ o kind →
        m₂.scopes.findIn? ScopeArena.root v.name = some (.value (.ofDouble x kind)) ∧
        (Spares s config v.name after m₂ →
          m.scopes.findIn? ScopeArena.root v.name = some (.value (.ofDouble x kind))) := by
  obtain ⟨hprogram, -⟩ := Shader.ofProgram_ok hs
  have described : Reflection.DescribesOverride l v o := by
    unfold Shader.ofProgram at hs
    obtain ⟨⟨r, l'⟩, hr, hs⟩ := Fault.bind_ok hs
    cases hs
    exact (List.forall₂_iff_zip.1 (Reflection.describes_ofProgram hr)).2 ho
  have given := Config.overrideValue?_of_text ha (described.text_id ha hplain hid) hname hx
  have run : (before ++ .value .override v :: after).forM (declaration s config) m₀.reset = .ok ((), m) := by
    rw [← hd, ← hprogram]
    exact hstart
  obtain ⟨m₁, m₂, hbefore, hfirst, hafter⟩ := run_split run
  refine ⟨m₁, m₂, hbefore, hfirst, hafter, fun kind hkind => ?_⟩
  obtain ⟨laid, hopen⟩ := opens_declarations before (show 0 < m₀.reset.scopes.depth from Nat.zero_lt_one) hbefore
  have extends_ : l.Extends m₁.layouts := (Call.extends_forM calls hcalls).trans laid
  obtain ⟨m', hdeclared⟩ := Eval.run_declareOverride (s := s) described extends_ given hkind
  have ended : declaration s config (.value .override v) m₁ =
      .ok ((), m'.bind ScopeArena.root v.name (.value (.ofDouble x kind))) := by
    change ((Eval.declareOverride s config v).run m₁ >>= _) = _
    rw [hdeclared]
    rfl
  rw [ended] at hfirst
  cases hfirst
  have single : [Declaration.value .override v].forM (declaration s config) m₁ =
      .ok ((), m'.bind ScopeArena.root v.name (.value (.ofDouble x kind))) := by
    rw [List.forM_eq_forM, List.forM_cons]
    change (declaration s config (.value .override v) m₁ >>= _) = _
    rw [ended]
    rfl
  have depth : 0 < m'.scopes.depth := by
    have := (opens_declarations [.value .override v] hopen single).2
    rwa [Machine.bind, ScopeArena.depth_insert] at this
  have bound : (m'.bind ScopeArena.root v.name (.value (.ofDouble x kind))).scopes.findIn?
      ScopeArena.root v.name = some (.value (.ofDouble x kind)) := ScopeArena.findIn?_insert_self depth
  exact ⟨bound, fun spares => (spares m hafter).trans bound⟩

end Exec

/-! ## A number that is written plainly, and one that is not -/

/-- A module with one override, two unless the host sets it. -/
def Program.scaled (id : Expr) : Program where
  declarations := [.value .override {
    name := "scale", type := some (.named 0 [] "f32"), storage := none, access := none
    value := some (.literal ⟨0, 0⟩ (.float 2 none)), attributes := [.mk "id" [id] 0], line := 0 }]

/-- Seven, as it is spelled. -/
def Expr.seven : Expr := .literal ⟨0, 0⟩ (.int 7 none)

/-- Three, as a sum. -/
def Expr.oneAndTwo : Expr := .binary ⟨0, 0⟩ .add (.literal ⟨0, 0⟩ (.int 1 none)) (.literal ⟨0, 0⟩ (.int 2 none))

namespace Exec

/-- The reflected override and the machine after a start that sets an override to one half. -/
def halves (id : Expr) (name : String) : Except Fault (Shader × Layouts × Machine) := do
  let (s, l) ← Shader.ofProgram (.scaled id)
  let (_, m) ← start s [(name, 0.5)] { layouts := l }
  return (s, l, m)

theorem of_halves (id : Expr) (name : String) (P : Shader → Machine → Bool)
    (h : (halves id name).toOption.any (fun (s, _, m) => P s m) = true) : ∃ s l m,
      Shader.ofProgram (.scaled id) = .ok (s, l) ∧
        start s [(name, 0.5)] { layouts := l } = .ok ((), m) ∧ P s m = true := by
  cases hr : halves id name with
  | error e =>
    rw [hr] at h
    cases h
  | ok r =>
    obtain ⟨s, l, m⟩ := r
    rw [hr] at h
    obtain ⟨⟨s', l'⟩, hs, hr⟩ := Fault.bind_ok hr
    obtain ⟨⟨_, m'⟩, hstart, hr⟩ := Fault.bind_ok hr
    cases hr
    exact ⟨s, l, m, hs, hstart, h⟩

/-- The override with the number seven is one half. -/
theorem override_by_number_seven : ∃ s l m, Shader.ofProgram (.scaled .seven) = .ok (s, l) ∧
    start s [("7", 0.5)] { layouts := l } = .ok ((), m) ∧
    m.scopes.findIn? ScopeArena.root "scale" = some (.value (.f32 ⟨0x3f000000⟩)) := by
  obtain ⟨s, l, m, hs, hstart, hP⟩ := of_halves .seven "7"
    (fun s _ => decide (s.reflection.overrides.map (fun o =>
      (o.id, o.type.map fun t => (t.vectorLength?, t.scalarKind?))) =
        [(some 7, some (none, some .f32))])) (by decide +kernel)
  obtain ⟨o, ho, parts⟩ := List.map_eq_singleton_iff.1 (of_decide_eq_true hP)
  obtain ⟨hid, htype⟩ := Prod.mk.inj parts
  obtain ⟨info, hinfo, hkinds⟩ := Option.map_eq_some_iff.1 htype
  obtain ⟨hlength, hkind⟩ := Prod.mk.inj hkinds
  have uncalled : [].forM (Call.run s) { layouts := l } = .ok ((), { layouts := l }) := rfl
  have alone : (Program.scaled .seven).declarations = [] ++ .value .override _ :: [] := rfl
  obtain ⟨m₁, m₂, -, -, -, bound⟩ := override_by_number hs uncalled hstart alone
    (ho ▸ List.mem_singleton_self _) hid rfl ⟨_, _, rfl⟩ rfl rfl
  obtain ⟨-, lasts⟩ := bound .f32 (.inl ⟨_, info, rfl, hinfo, hlength, hkind⟩)
  have half : Value.ofDouble 0.5 .f32 = .f32 ⟨0x3f000000⟩ :=
    congrArg Value.f32 (by decide +kernel : Number.Single.ofDouble 0.5 = ⟨0x3f000000⟩)
  rw [← half]
  refine ⟨s, l, m, hs, hstart, lasts fun m₁ h => ?_⟩
  cases h
  rfl

/-- Whether a name is bound to that single in the root scope. -/
def showsSingle (m : Machine) (name : String) (x : Number.Single) : Bool :=
  match m.scopes.findIn? ScopeArena.root name with
  | some (.value (.f32 y)) => decide (y = x)
  | _ => false

theorem findIn?_of_showsSingle {m : Machine} {name : String} {x : Number.Single}
    (h : showsSingle m name x = true) :
    m.scopes.findIn? ScopeArena.root name = some (.value (.f32 x)) := by
  unfold showsSingle at h
  split at h
  · rename_i y hy
    rw [hy, of_decide_eq_true h]
  · cases h

/-- The override with the number one and two, which is reflected as three, stays two. -/
theorem override_unheard : ∃ s l m, Shader.ofProgram (.scaled .oneAndTwo) = .ok (s, l) ∧
    start s [("3", 0.5)] { layouts := l } = .ok ((), m) ∧
    s.reflection.overrides.map OverrideInfo.id = [some 3] ∧
    m.scopes.findIn? ScopeArena.root "scale" = some (.value (.f32 ⟨0x40000000⟩)) ∧
    Value.ofDouble 0.5 .f32 ≠ .f32 ⟨0x40000000⟩ := by
  obtain ⟨s, l, m, hs, hstart, hP⟩ := of_halves .oneAndTwo "3"
    (fun s m => decide (s.reflection.overrides.map OverrideInfo.id = [some 3]) &&
      showsSingle m "scale" ⟨0x40000000⟩) (by decide +kernel)
  obtain ⟨ids, value⟩ := (Bool.and_eq_true _ _).mp hP
  have half : Number.Single.ofDouble 0.5 ≠ ⟨0x40000000⟩ := by decide +kernel
  exact ⟨s, l, m, hs, hstart, of_decide_eq_true ids, findIn?_of_showsSingle value,
    fun h => half (Value.f32.inj h)⟩

end Exec

end Wgsl
