import Wgsl.Proofs.Reflect.Again

/-! # Reflected overrides

What reflection says of an override it says again whenever it is asked later, also in the middle of a
run: the memory of layouts holds the declared type by then.

* `LayoutM.settling`: questions that lay out types are answered once and for all.
* `Reflection.DescribesOverride`: the answer to the question what an override declares.
* `Reflection.describes_ofProgram`: the overrides of a reflection.
* `Reflection.DescribesOverride.id_eq`, `Reflection.DescribesOverride.typeInfo`: the parts of the answer.
-/

namespace Wgsl
set_option autoImplicit false

namespace LayoutM

variable {α β : Type} {l l' : Layouts}

/-- Questions that lay out types are settled once they are answered. -/
def settling : Reflection.Questioning fun _ => True where
  obeys x := Settles x
  obeys_pure a := settles_lift (.ok a)
  obeys_bind hx hg l b l₂ hidle h := by
    obtain ⟨a, l₁, h₁, h₂⟩ := bind_ok h
    obtain ⟨first, again⟩ := hx l a l₁ hidle h₁
    obtain ⟨second, again'⟩ := hg a l₁ b l₂ (first.inProgress.trans hidle) h₂
    exact ⟨first.trans second, fun f hf =>
      (run_bind_ok (again f (second.toExtends.trans hf))).trans (again' f hf)⟩
  obeys_lift r := settles_lift r
  obeys_constants h l a l' hidle hrun := by
    obtain ⟨grows, again⟩ := h l.constants l a l' hidle hrun
    exact ⟨grows, fun f hf => (run_constants (grows.toExtends.trans hf)).trans (again f hf)⟩
  obeys_typeInfo t _ := settles_typeInfo t
  obeys_structInfo := settles_structInfo

/-- By induction over the items: each has its answer at the end. -/
theorem settled_mapM {f : α → LayoutM β} (hf : ∀ a, Settles (f a)) (items : List α) {bs : List β}
    (hidle : l.inProgress = []) (h : (items.mapM f).run l = .ok (bs, l')) :
    l.Extends l' ∧ List.Forall₂ (fun a b => ∀ g, l'.Extends g → (f a).run g = .ok (b, g)) items bs := by
  induction items generalizing l bs with
  | nil =>
    cases h
    exact ⟨.refl _, .nil⟩
  | cons a items ih =>
    rw [List.mapM_cons] at h
    obtain ⟨b, l₁, hb, h⟩ := bind_ok h
    obtain ⟨rest, l₂, hrest, h⟩ := bind_ok h
    cases h
    obtain ⟨grows, again⟩ := hf a l b l₁ hidle hb
    obtain ⟨later, others⟩ := ih (grows.inProgress.trans hidle) hrest
    exact ⟨grows.toExtends.trans later, .cons (fun g hg => again g (later.trans hg)) others⟩

end LayoutM

namespace Reflection

open LayoutM

variable {p : Program} {l g : Layouts} {v : VarDecl} {o : OverrideInfo}

/-- Asked on these layouts or later ones what the override declares, reflection gives this answer. -/
def DescribesOverride (l : Layouts) (v : VarDecl) (o : OverrideInfo) : Prop :=
  ∀ g, l.Extends g → (overrideOf v).run g = .ok (o, g)

/-- What reflection finds out about one declaration: the resource or the override that it is. -/
def foundOf (d : Declaration) : LayoutM (Option Resource × Option OverrideInfo) := do
  match d with
  | .value .var v => return (← resourceOf v, none)
  | .value .override v => return (none, some (← overrideOf v))
  | _ => return (none, none)

/-- The override that is declared. -/
def overrideDecl? : Declaration → Option VarDecl
  | .value .override v => some v
  | _ => none

theorem values_override (p : Program) : p.values .override = p.declarations.filterMap overrideDecl? := by
  unfold Program.values
  congr 1
  funext d
  cases d with
  | value kind v => cases kind <;> rfl
  | _ => rfl

/-- An override is found where one is declared. -/
theorem rel_foundOf {d : Declaration} {found : Option Resource × Option OverrideInfo}
    (h : ∀ g, l.Extends g → (foundOf d).run g = .ok (found, g)) :
    Option.Rel (DescribesOverride l) (overrideDecl? d) found.2 := by
  have now := h l (.refl l)
  cases d with
  | value kind v =>
    cases kind with
    | const =>
      cases now
      exact .none
    | var =>
      obtain ⟨r, l₁, -, now⟩ := bind_ok now
      cases now
      exact .none
    | override =>
      obtain ⟨o, l₁, ho, now⟩ := bind_ok now
      cases now
      refine .some fun g hg => ?_
      obtain ⟨o', g', ho', later⟩ := bind_ok (h g hg)
      cases later
      exact ho'
  | _ =>
    cases now
    exact .none

/-- Every override is reflected as it would be described later. -/
theorem describes_ofProgram {r : Reflection}
    (h : (ofProgram p).run (Layouts.ofProgram p) = .ok (r, l)) :
    List.Forall₂ (DescribesOverride l) (p.values .override) r.overrides := by
  have idle := (Layouts.declares_ofProgram p).inProgress
  unfold Reflection.ofProgram at h
  rw [filterMapM_eq, map_eq_pure_bind, bind_assoc] at h
  obtain ⟨structs, l₁, h₁, h⟩ := bind_ok h
  rw [pure_bind] at h
  obtain ⟨aliases, l₂, h₂, h⟩ := bind_ok h
  obtain ⟨found, l₃, h₃, h⟩ := bind_ok h
  obtain ⟨_, _, hget, h⟩ := bind_ok h
  cases hget
  obtain ⟨functions, l₄, h₄, h⟩ := bind_ok h
  obtain ⟨_, _, hget, h⟩ := bind_ok h
  cases hget
  cases h
  have first := Passing.obeys_mapM (C := extending.toPassing) (fun s _ => extending_reset s) _ _ _ h₁
  have second := Passing.obeys_mapM (C := extending.toPassing) (fun a _ => Questioning.obeys_aliasOf trivial)
    _ _ _ h₂
  have fourth := Passing.obeys_mapM (C := extending.toPassing) (fun f _ => Asking.obeys_functionOf f) _ _ _ h₄
  have settles : ∀ d, Settles (foundOf d) := fun d =>
    Questioning.obeys_found (C := settling) fun _ _ => trivial
  obtain ⟨-, answers⟩ := settled_mapM settles p.declarations
    ((first.trans second).inProgress.trans idle) h₃
  rw [values_override]
  exact List.rel_filterMap (R := fun d found => ∀ g, l₃.Extends g → (foundOf d).run g = .ok (found, g))
    (fun d found answer => rel_foundOf fun g hg => answer g (fourth.trans hg)) answers

/-! ## The parts of the answer -/

/-- A number is what the first argument of its attribute folds to. -/
theorem number?_ok {attributes : List Attribute} {name : String} {n? : Option Nat} {g₁ : Layouts}
    (h : (number? attributes name).run g = .ok (n?, g₁)) : g₁ = g ∧ ∀ a arg,
      Attribute.find? attributes name = some a → a.args.head? = some arg →
      ∃ n, Expr.foldUInt32 g.constants arg = .ok n ∧ n? = n.map UInt32.toNat := by
  unfold number? attributeNumber? at h
  split at h
  case h_1 arg harg =>
    obtain ⟨_, _, hget, h⟩ := bind_ok h
    cases hget
    obtain ⟨n, g₂, hn, h⟩ := bind_ok h
    cases h
    cases hfold : Expr.foldUInt32 g.constants arg with
    | error e =>
      rw [hfold] at hn
      cases hn
    | ok n =>
      rw [hfold] at hn
      cases hn
      refine ⟨rfl, fun a arg' ha harg' => ⟨n, ?_, rfl⟩⟩
      rw [ha, Option.bind_some, harg'] at harg
      cases harg
      exact hfold
  case h_2 harg =>
    cases h
    refine ⟨rfl, fun a arg ha harg' => ?_⟩
    rw [ha, Option.bind_some, harg'] at harg
    cases harg

/-- The number of an override is what the argument folds to. -/
theorem DescribesOverride.id_eq (h : DescribesOverride l v o) {a : Attribute} {arg : Expr}
    (ha : Attribute.find? v.attributes "id" = some a) (harg : a.args.head? = some arg) :
    ∃ n, Expr.foldUInt32 l.constants arg = .ok n ∧ o.id = n.map UInt32.toNat := by
  obtain ⟨id, l₁, hid, hrun⟩ := bind_ok (h l (.refl l))
  obtain ⟨type, l₂, -, hrun⟩ := bind_ok hrun
  cases hrun
  exact (number?_ok hid).2 a arg ha harg

/-- The type of an override is the layout of its declared type, which is not laid out again. -/
theorem DescribesOverride.typeInfo (h : DescribesOverride l v o) (hg : l.Extends g) {t : TypeExpr}
    (ht : v.type = some t) :
    ∃ info, o.type = some info ∧ (LayoutM.typeInfo t).run g = .ok (info, g) := by
  obtain ⟨id, g₁, hid, hrun⟩ := bind_ok (h g hg)
  obtain ⟨rfl, -⟩ := number?_ok hid
  obtain ⟨type, g₂, htype, hrun⟩ := bind_ok hrun
  cases hrun
  rw [ht] at htype
  change (some <$> LayoutM.typeInfo t).run _ = _ at htype
  rw [map_eq_pure_bind] at htype
  obtain ⟨info, g₃, hinfo, htype⟩ := bind_ok htype
  cases htype
  exact ⟨info, rfl, hinfo⟩

end Reflection

end Wgsl
