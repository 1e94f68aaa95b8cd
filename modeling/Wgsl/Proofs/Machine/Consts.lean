import Wgsl.Proofs.Layout.Placement
import Wgsl.Proofs.Machine.Folded
import Wgsl.Proofs.Machine.History
import Wgsl.Proofs.Machine.Sparing
import Wgsl.Proofs.Reflect.Workgroups

/-! # The constants of a module that has been started

Starting a module declares its constants one after another. Each is bound to what its initializer
folds to, and keeps that value as long as nothing else that runs during the start changes it.

* `Program.PlainConsts`: what is asked of the declarations.
* `Exec.SparesConsts`, `Exec.sparesConsts_of_sparing`: what is asked of a start, and initializers that
  give it.
* `Exec.Started.run`: the constants that have been declared are bound to what they fold to.
* `Exec.folds_of_start`: after a start, what is folded is what is evaluated.
-/

namespace Wgsl
set_option autoImplicit false

open Constant Library

/-! ## Modules whose constants can be folded -/

/-- The name of the constant that is declared. -/
def Declaration.constName? : Declaration → Option String
  | .value .const v => some v.name
  | _ => none

/-- The names of the constants among declarations. -/
def constNames (ds : List Declaration) : List String := ds.filterMap Declaration.constName?

theorem constNames_append (ds ds' : List Declaration) :
    constNames (ds ++ ds') = constNames ds ++ constNames ds' :=
  List.filterMap_append

theorem Declaration.eq_const {d : Declaration} {name : String} (h : d.constName? = some name) :
    ∃ v, d = .value .const v ∧ v.name = name := by
  unfold constName? at h
  split at h
  · cases h
    exact ⟨_, rfl, rfl⟩
  · cases h

/-- Constants have names of their own, no types, and initializers that use only earlier ones; nothing
else goes by the name of a function that they may call. -/
structure Program.PlainConsts (p : Program) : Prop where
  initial : ∀ before v after, p.declarations = before ++ .value .const v :: after →
    v.type = none ∧ ∃ e, v.value = some e ∧ e.Elementary (· ∈ constNames before)
  apart : ∀ before v after, p.declarations = before ++ .value .const v :: after →
    ∀ d ∈ before ++ after, d.valueName? ≠ some v.name
  functions : ∀ f ∈ p.functions, f.name ∉ folded
  structs : ∀ d ∈ p.structs, d.name ∉ folded

variable {p : Program} {s : Shader} {l : Layouts} {m m₁ : Machine} {config : Config}
  {before ds after : List Declaration} {v : VarDecl}

/-! ## The table of constants -/

namespace Layouts

theorem constants_note_of_ne {name : String} (h : v.name ≠ name) :
    (ofProgram.note l v).constants.find? name = l.constants.find? name := by
  unfold ofProgram.note
  split
  · exact Table.find?_insert_of_ne _ _ h.symm
  · rfl

/-- Later declarations of other names leave a constant alone. -/
theorem constants_foldl_of_ne {name : String} (h : ∀ d ∈ ds, d.valueName? ≠ some name) (l : Layouts) :
    (ds.foldl declared l).constants.find? name = l.constants.find? name := by
  induction ds generalizing l with
  | nil => rfl
  | cons d ds ih =>
    have other := h d List.mem_cons_self
    rw [List.foldl_cons, ih fun d hd => h d (List.mem_cons_of_mem _ hd)]
    unfold declared
    split
    · rfl
    · rfl
    · exact constants_note_of_ne fun e => other (congrArg some e)
    · exact constants_note_of_ne fun e => other (congrArg some e)
    · rfl

/-- The initializer of a constant. -/
theorem constants_ofProgram (hp : p.PlainConsts)
    (hd : p.declarations = before ++ .value .const v :: after) {e : Expr} (hv : v.value = some e) :
    (ofProgram p).constants.find? v.name = some e := by
  have others := hp.apart before v after hd
  rw [ofProgram_eq, hd, List.foldl_append, List.foldl_cons,
    constants_foldl_of_ne fun d hd => others d (List.mem_append_right _ hd)]
  unfold declared ofProgram.note
  dsimp only
  rw [hv]
  exact Table.find?_insert_self _ _ _

end Layouts

/-- No other value has the name of a constant. -/
theorem Program.PlainConsts.valueName?_ne (hp : p.PlainConsts) {d : Declaration} {name : String}
    (hd : d ∈ p.declarations) (hconst : d.constName? = none)
    (hname : name ∈ constNames p.declarations) : d.valueName? ≠ some name := by
  obtain ⟨c, hc, named⟩ := List.mem_filterMap.1 hname
  obtain ⟨v, rfl, rfl⟩ := Declaration.eq_const named
  obtain ⟨before, after, split⟩ := List.append_of_mem hc
  refine hp.apart before v after split d ?_
  rw [split, List.mem_append, List.mem_cons] at hd
  obtain hd | rfl | hd := hd
  · exact List.mem_append_left _ hd
  · cases hconst
  · exact List.mem_append_right _ hd

/-! ## Starting -/

/-- Along the way through the declarations, only its own declaration changes what a constant is bound
to. -/
def Exec.SparesConsts (s : Shader) (config : Config) (names : List String) :
    List Declaration → Machine → Prop
  | [], _ => True
  | d :: ds, m => ∀ m₁, declaration s config d m = .ok ((), m₁) →
    (d.constName? = none → ∀ name ∈ names,
      m₁.scopes.findIn? ScopeArena.root name = m.scopes.findIn? ScopeArena.root name) ∧
    SparesConsts s config names ds m₁

namespace Exec

/-- A start spares the constants if no initializer calls a declared function or writes through a
pointer. -/
theorem sparesConsts_of_sparing {names : List String}
    (apart : ∀ d ∈ ds, d.constName? = none → ∀ name ∈ names, d.valueName? ≠ some name)
    (h : ∀ d ∈ ds, d.constName? = none → ∀ x ∈ d.mentions, x.Sparing s) :
    SparesConsts s config names ds m := by
  induction ds generalizing m with
  | nil => trivial
  | cons d ds ih =>
    refine fun m₁ hrun => ⟨fun hconst name hname => ?_,
      ih (fun d hd => apart d (List.mem_cons_of_mem _ hd)) fun d hd => h d (List.mem_cons_of_mem _ hd)⟩
    exact sparing_declaration (h d List.mem_cons_self hconst)
      (apart d List.mem_cons_self hconst name hname) m () m₁ hrun

/-- Declaring a constant binds it to what its initializer evaluates to, and leaves the other names
alone. -/
theorem run_const (h : m.Unclaimed s) {e : Expr} {names : String → Prop} (ht : v.type = none)
    (hv : v.value = some e) (he : e.Elementary names)
    (hrun : declaration s config (.value .const v) m = .ok ((), m₁)) :
    ∃ x, m₁.scopes = m.scopes.insert ScopeArena.root v.name (.value x) ∧
      ∀ w, (Eval.expr s (Eval.call s) ScopeArena.root e).Gives m (.ok w) → x = w := by
  obtain ⟨r, hr⟩ : Eval.Still m (Eval.expr s (Eval.call s) ScopeArena.root e) :=
    Eval.still_expr h e he
  have initial : (Eval.initialValue s (Eval.call s) ScopeArena.root v).run m = .ok (r, m) := by
    unfold Eval.initialValue
    rw [ht, hv]
    exact hr
  change ((Eval.declare s (Eval.call s) ScopeArena.root v).run m >>= _) = _ at hrun
  have bound : (Eval.declare s (Eval.call s) ScopeArena.root v).run m =
      .ok (r.map fun _ => (), m.bind ScopeArena.root v.name (.value (r.toOption.getD .void))) := by
    change ((Eval.initialValue s (Eval.call s) ScopeArena.root v).run m >>= _) = _
    rw [initial]
    cases r <;> rfl
  rw [bound] at hrun
  refine ⟨r.toOption.getD .void, ?_, fun w hw => ?_⟩
  · cases r <;> cases hrun <;> rfl
  · have same : r = .ok w := congrArg Prod.fst (Except.ok.inj (hr.symm.trans hw))
    rw [same]
    rfl

/-- What is known in the middle of a start: constants declared so far are bound to what they fold to. -/
structure Started (s : Shader) (p : Program) (before : List Declaration) (m : Machine) : Prop where
  unclaimed : m.Unclaimed s
  depth : 0 < m.scopes.depth
  shows : m.Shows (Layouts.ofProgram p).constants (· ∈ constNames before)

/-- One declaration. -/
theorem Started.step (hp : p.PlainConsts) {d : Declaration} (hd : p.declarations = before ++ d :: after)
    (h : Started s p before m) (hrun : declaration s config d m = .ok ((), m₁))
    (hspared : d.constName? = none → ∀ name ∈ constNames p.declarations,
      m₁.scopes.findIn? ScopeArena.root name = m.scopes.findIn? ScopeArena.root name) :
    Started s p (before ++ [d]) m₁ := by
  have carried : m.Carries m₁ := Conduct.inside_declaration (C := .carrying)
    (Conduct.admitsShader_of_all (fun _ => trivial) s) (fun x _ => x.typed_of_all fun _ => trivial)
    m () m₁ hrun
  have stack := Conduct.inside_declaration (C := .stack)
    (Conduct.admitsShader_of_all (fun _ => trivial) s) (fun x _ => x.typed_of_all fun _ => trivial)
    m () m₁ h.depth hrun
  refine ⟨h.unclaimed.carried carried, stack.depth ▸ h.depth, fun name init c hname hinit hx hf => ?_⟩
  rw [constNames_append, List.mem_append] at hname
  cases hconst : d.constName? with
  | none =>
    have earlier : name ∈ constNames before := by
      refine hname.resolve_right fun hd => ?_
      simp only [constNames, List.filterMap_cons, hconst, List.filterMap_nil, List.not_mem_nil] at hd
    rw [hspared hconst name (by rw [hd, constNames_append]; exact List.mem_append_left _ earlier)]
    exact h.shows name init c earlier hinit hx hf
  | some _ =>
    obtain ⟨v, rfl, -⟩ := Declaration.eq_const hconst
    obtain ⟨ht, e, hv, he⟩ := hp.initial before v after hd
    obtain ⟨x, hscopes, hgives⟩ := run_const h.unclaimed ht hv he hrun
    rw [hscopes]
    obtain earlier | hself := hname
    · have apart : name ≠ v.name := by
        rintro rfl
        obtain ⟨d, hmem, hname⟩ := List.mem_filterMap.1 earlier
        obtain ⟨w, rfl, hw⟩ := Declaration.eq_const hname
        exact hp.apart before v after hd _ (List.mem_append_left _ hmem) (congrArg some hw)
      rw [ScopeArena.findIn?_insert_of_ne (.inr apart)]
      exact h.shows name init c earlier hinit hx hf
    · obtain rfl : name = v.name := List.mem_singleton.1 hself
      obtain rfl : e = init :=
        Option.some.inj ((Layouts.constants_ofProgram hp hd hv).symm.trans hinit)
      obtain ⟨w, hw, hcw⟩ : ∃ w, (Eval.expr s (Eval.call s) ScopeArena.root e).Gives m (.ok w) ∧
          c.Becomes w := Eval.expr_becomes h.unclaimed h.shows e (Nat.le_refl _) he hx hf
      refine ⟨w, ?_, hcw⟩
      rw [← hgives w hw]
      exact ScopeArena.findIn?_insert_self h.depth

/-- By induction over the declarations. -/
theorem Started.run (hp : p.PlainConsts) (hd : p.declarations = before ++ ds)
    (h : Started s p before m) (hspares : SparesConsts s config (constNames p.declarations) ds m)
    (hrun : ds.forM (declaration s config) m = .ok ((), m₁)) : Started s p p.declarations m₁ := by
  induction ds generalizing before m with
  | nil =>
    cases hrun
    rw [hd, List.append_nil]
    exact h
  | cons d ds ih =>
    rw [List.forM_eq_forM, List.forM_cons] at hrun
    obtain ⟨_, m₂, hfirst, hrest⟩ := bind_ok hrun
    obtain ⟨spared, hspares⟩ := hspares m₂ hfirst
    have next : p.declarations = before ++ [d] ++ ds := by rw [hd, List.append_assoc]; rfl
    exact ih next (h.step hp hd hfirst spared) hspares hrest

end Exec

/-! ## Earlier calls -/

/-- From binding the resources to handing them back, layouts forget nothing. -/
theorem Exec.extends_onResources {plan : DispatchPlan} {entry : String} {g g₁ : BindGroups}
    (hentry : s.function? entry = some plan.entry) (hrun : onResources s plan g m = .ok (g₁, m₁)) :
    m.layouts.Extends m₁.layouts := by
  have shader : Conduct.carrying.AdmitsShader s := Conduct.admitsShader_of_all (fun _ => trivial) s
  obtain ⟨rest, m₂, hbind, hrun⟩ := bind_ok hrun
  cases hbind
  obtain ⟨_, m₃, hruns, hend⟩ := bind_ok hrun
  cases hend
  have carried := Conduct.inside_runInvocations shader hentry _ _ _ _ _ hruns
  have bound := congrArg (·.1.layouts)
    ((m.bindResources_layouts s.reflection.resources g).2 m.layouts)
  exact bound ▸ carried.layouts

/-- Nor do they before the resources are bound. -/
theorem Attempt.extends_started {entry : String} {outcome : Except Fault (Function × Extent)}
    (hrun : (started s entry config).run m = .ok (outcome, m₁)) :
    m.layouts.Extends m₁.layouts ∧
      ∀ f size, outcome = .ok (f, size) → s.function? entry = some f := by
  cases hl : s.reflection.layoutErrors with
  | cons message errors =>
    have refused : started s entry config = throw (.layout message) := by
      unfold started
      rw [hl]
      rfl
    rw [refused] at hrun
    cases hrun
    exact ⟨.refl _, nofun⟩
  | nil =>
    refine ⟨?_, fun f size e => function?_of_started hl (e ▸ hrun)⟩
    have shader : Conduct.carrying.AdmitsShader s := Conduct.admitsShader_of_all (fun _ => trivial) s
    rw [run_started hl] at hrun
    have carried : m.reset.Carries m₁ :=
      Machine.carries_lasting.keeps_bind (Conduct.inside_declarations shader config)
        (fun _ => Conduct.eval_entryPoint shader entry) m.reset outcome m₁ hrun
    exact carried.layouts

/-- Layouts forget nothing in the course of a call. -/
theorem Call.extends_run (c : Call) (hrun : c.run s m = .ok ((), m₁)) :
    m.layouts.Extends m₁.layouts := by
  have shader : Conduct.carrying.AdmitsShader s := Conduct.admitsShader_of_all (fun _ => trivial) s
  cases c with
  | execute config =>
    have carried : m.reset.Carries m₁ := Conduct.inside_declarations shader config m.reset () m₁ hrun
    exact carried.layouts
  | dispatch entry workgroups g config =>
    obtain ⟨outcome, m₂, hrun, hend⟩ := Exec.bind_ok hrun
    cases hend
    rw [Attempt.run_dispatch] at hrun
    obtain ⟨⟨found, m₃⟩, hstarted, hrun⟩ := Fault.bind_ok hrun
    obtain ⟨before, hentry⟩ := Attempt.extends_started hstarted
    cases found with
    | error reason =>
      cases hrun
      exact before
    | ok found =>
      obtain ⟨f, size⟩ := found
      change (Except.ok <$> Exec.onResources s ⟨f, workgroups, size⟩ g) m₃ = _ at hrun
      rw [map_eq_pure_bind] at hrun
      obtain ⟨g₁, m₄, hrun, hend⟩ := Exec.bind_ok hrun
      cases hend
      exact before.trans (Exec.extends_onResources (hentry f size rfl) hrun)

/-- By induction over the calls. -/
theorem Call.extends_forM (calls : List Call) (hrun : calls.forM (Call.run s) m = .ok ((), m₁)) :
    m.layouts.Extends m₁.layouts := by
  induction calls generalizing m with
  | nil =>
    cases hrun
    exact .refl _
  | cons c calls ih =>
    rw [List.forM_eq_forM, List.forM_cons] at hrun
    obtain ⟨_, m₂, hfirst, hrest⟩ := Exec.bind_ok hrun
    exact (c.extends_run hfirst).trans (ih hrest)

theorem Shader.extends_ofProgram (hs : Shader.ofProgram p = .ok (s, l)) :
    (Layouts.ofProgram p).Extends l := by
  unfold ofProgram at hs
  obtain ⟨⟨r, l'⟩, hr, hs⟩ := Fault.bind_ok hs
  cases hs
  exact Reflection.extending_ofProgram p _ _ _ hr

theorem Shader.sized_ofProgram (hs : Shader.ofProgram p = .ok (s, l)) : List.Forall₂
    (Reflection.Sized (Layouts.ofProgram p).constants) p.functions s.reflection.functions := by
  unfold ofProgram at hs
  obtain ⟨⟨r, l'⟩, hr, hs⟩ := Fault.bind_ok hs
  cases hs
  exact Reflection.sized_ofProgram hr

/-- A start calls the functions of constant expressions by their names. -/
theorem Program.PlainConsts.unclaimed (hp : p.PlainConsts) (hs : Shader.ofProgram p = .ok (s, l))
    (hl : l.Extends m.layouts) : m.reset.Unclaimed s := by
  have all : (Layouts.ofProgram p).Extends m.layouts := (Shader.extends_ofProgram hs).trans hl
  have undeclared : ∀ name ∈ folded, (Layouts.ofProgram p).structs.find? name = none := by
    intro name hname
    refine Option.eq_none_iff_forall_not_mem.2 fun decl hdecl => ?_
    obtain ⟨hmem, rfl⟩ := (Layouts.declares_ofProgram p).structs name decl hdecl
    exact hp.structs decl hmem hname
  refine ⟨fun name hname => ?_, fun name hname => ?_, fun name hname => ?_, rfl⟩
  · refine Option.eq_none_iff_forall_not_mem.2 fun f hf => ?_
    obtain ⟨hmem, rfl⟩ := Shader.mem_of_function? hs hf
    exact hp.functions f hmem hname
  · exact (congrArg (Table.find? · name) all.structs).trans (undeclared name hname)
  · refine (all.undeclared name (undeclared name hname)).trans ?_
    rw [(Layouts.empty_ofProgram p).byStruct]
    rfl

/-! ## After a start -/

namespace Attempt

variable {α β : Type} {e : Expr} {n : UInt32} {f : Function}

theorem run_bind_ok {x : Attempt α} {k : α → Attempt β} {a : α} (h : x.run m = .ok (.ok a, m₁)) :
    (x >>= k).run m = (k a).run m₁ := by
  change (x.run m >>= _) = _
  rw [h]
  rfl

theorem run_mapM {g : α → Attempt β} {items : List α} {found : List β}
    (h : List.Forall₂ (fun a b => (g a).run m = .ok (.ok b, m)) items found) :
    (items.mapM g).run m = .ok (.ok found, m) := by
  induction h with
  | nil => rfl
  | cons h _ ih =>
    rw [List.mapM_cons]
    exact (run_bind_ok h).trans (run_bind_ok ih)

theorem run_workgroupAxis {x : Value}
    (he : (Eval.expr s (Eval.call s) ScopeArena.root e).Gives m (.ok x)) (hx : x.unsigned = .ok n) :
    (workgroupAxis s e).run m = .ok (.ok n.toNat, m) := by
  have size : (do (← Eval.expr s (Eval.call s) ScopeArena.root e).unsigned : Eval UInt32).Gives m
      (.ok n) := he.bind (hx ▸ Eval.gives_lift _)
  have ran : (ofExec (do (← Eval.expr s (Eval.call s) ScopeArena.root e).unsigned : Eval UInt32).run).run
      m = .ok (.ok (.ok n), m) := congrArg (Except.map _) size
  exact run_bind_ok ran

/-- Missing sizes are one. -/
theorem run_workgroupSize {a : Attribute} (ha : f.attribute? "workgroup_size" = some a)
    {ns : List UInt32} (h : List.Forall₂ (fun e n => ∃ x,
      (Eval.expr s (Eval.call s) ScopeArena.root e).Gives m (.ok x) ∧ x.unsigned = .ok n)
      (a.args.take 3) ns) :
    (workgroupSize s f).run m = .ok (.ok ⟨(ns.map UInt32.toNat).getD 0 1,
      (ns.map UInt32.toNat).getD 1 1, (ns.map UInt32.toNat).getD 2 1⟩, m) := by
  have axes : ((a.args.take 3).mapM (workgroupAxis s)).run m = .ok (.ok (ns.map UInt32.toNat), m) :=
    run_mapM (List.forall₂_map_right_iff.2 (h.imp fun _ _ ⟨_, he, hx⟩ => run_workgroupAxis he hx))
  have short : ns.length ≤ 3 := by
    rw [← h.length_eq, List.length_take]
    exact Nat.min_le_left _ _
  unfold workgroupSize
  rw [ha]
  refine (run_bind_ok axes).trans ?_
  match ns, short with
  | [], _ | [_], _ | [_, _], _ | [_, _, _], _ => rfl

end Attempt

/-- After a start, an expression that folds evaluates to the same at module scope, and a workgroup is
of the size that is reflected for it. The start may follow any calls. -/
theorem Exec.folds_of_start (hp : p.PlainConsts) (hs : Shader.ofProgram p = .ok (s, l))
    {calls : List Call} {m₀ : Machine} (hcalls : calls.forM (Call.run s) { layouts := l } = .ok ((), m₀))
    (hspares : SparesConsts s config (constNames p.declarations) p.declarations m₀.reset)
    (hstart : start s config m₀ = .ok ((), m)) :
    (∀ e c, e.Elementary (· ∈ constNames p.declarations) → e.Exact (Layouts.ofProgram p).constants →
      Expr.fold (Layouts.ofProgram p).constants e = .ok (some c) →
      ∃ x, (Eval.expr s (Eval.call s) ScopeArena.root e).run m = .ok (.ok x, m) ∧ c.Becomes x) ∧
    ∀ f info a x y z, (f, info) ∈ p.functions.zip s.reflection.functions →
      f.attribute? "workgroup_size" = some a →
      (∀ e ∈ a.args.take 3, e.Elementary (· ∈ constNames p.declarations) ∧
        e.Exact (Layouts.ofProgram p).constants) →
      info.workgroupSize = some (x, y, z) →
      (Attempt.workgroupSize s f).run m = .ok (.ok ⟨x, y, z⟩, m) := by
  obtain ⟨hprogram, -⟩ := Shader.ofProgram_ok hs
  have fresh : Started s p [] m₀.reset :=
    ⟨hp.unclaimed hs (Call.extends_forM calls hcalls), Nat.zero_lt_one, nofun⟩
  have ready : Started s p p.declarations m := by
    refine fresh.run hp rfl hspares ?_
    rw [← hprogram]
    exact hstart
  have folded : ∀ e c, e.Elementary (· ∈ constNames p.declarations) →
      e.Exact (Layouts.ofProgram p).constants →
      Expr.fold (Layouts.ofProgram p).constants e = .ok (some c) →
      ∃ x, (Eval.expr s (Eval.call s) ScopeArena.root e).Gives m (.ok x) ∧ c.Becomes x :=
    fun e _ he hx hf => Eval.expr_becomes ready.unclaimed ready.shows e (Nat.le_refl _) he hx hf
  refine ⟨folded, fun f info a x y z hmem ha hargs hsize => ?_⟩
  have sized := (List.forall₂_iff_zip.1 (Shader.sized_ofProgram hs)).2 hmem
  obtain ⟨a', ha', ns, hns, hxyz⟩ := sized (x, y, z) hsize
  obtain rfl : a = a' := Option.some.inj (ha.symm.trans ha')
  cases hxyz
  refine Attempt.run_workgroupSize ha ?_
  refine List.forall₂_iff_zip.2 ⟨hns.length_eq, fun {e n} hen => ?_⟩
  obtain ⟨he, hx⟩ := hargs e (List.of_mem_zip hen).1
  have hfold := (List.forall₂_iff_zip.1 hns).2 hen
  obtain ⟨c?, hc, hn⟩ := Fault.bind_ok hfold
  obtain ⟨c, rfl, hcn⟩ := Option.bind_eq_some_iff.1 (Except.ok.inj hn)
  obtain ⟨v, hv, hcv⟩ := folded e c he hx hc
  exact ⟨v, hv, hcv.unsigned hcn⟩

/-! ## Modules with one constant -/

/-- A value without a type. -/
def VarDecl.untyped (name : String) (value : Expr) : VarDecl where
  name
  type := none
  storage := none
  access := none
  value := some value
  attributes := []
  line := 0

/-- The constant one. -/
def VarDecl.one : VarDecl := .untyped "a" (.literal ⟨0, 0⟩ (.int 1 none))

/-- The name of the constant. -/
def Expr.one : Expr := .var ⟨0, 0⟩ "a"

/-- The constant folds to one whatever else is declared or assigned under its name. -/
theorem Expr.exact_one {constants : Table Expr} (h : constants.find? "a" = VarDecl.one.value) :
    one.Exact constants ∧ fold constants .one = .ok (some (.int 1)) := by
  have one : (literal ⟨0, 0⟩ (.int 1 none)).Exact constants :=
    exact_literal ⟨by decide, by decide⟩
  have folds : Folds constants 2 .one (.int 1) := folds_var.2 ⟨_, h, rfl⟩
  exact ⟨exact_var h one, folds.fold (by decide)⟩

/-- Its double. -/
def VarDecl.double : VarDecl := .untyped "b" (.binary ⟨0, 0⟩ .add .one .one)

/-- A variable that starts from the double. -/
def VarDecl.doubled : VarDecl := .untyped "c" (.var ⟨0, 0⟩ "b")

/-- An entry point with a workgroup of the size of the double. -/
def Function.ofDouble : Function where
  name := "main"
  args := []
  returnType := none
  returnAttributes := []
  attributes := [.mk "compute" [] 0, .mk "workgroup_size" [.var ⟨0, 0⟩ "b"] 0]
  body := []
  startLine := 0
  endLine := 0

def Program.doublesOne : Program where
  declarations := [.value .const .one, .value .const .double, .value .var .doubled,
    .function .ofDouble]

/-- Its constants by their places. -/
theorem Program.consts_doublesOne {before after : List Declaration} {v : VarDecl}
    (h : doublesOne.declarations = before ++ .value .const v :: after) :
    (before = [] ∧ v = .one ∧ after = doublesOne.declarations.drop 1) ∨
      (before = doublesOne.declarations.take 1 ∧ after = doublesOne.declarations.drop 2 ∧
        v = .double) := by
  match before with
  | [] =>
    cases h
    exact .inl ⟨rfl, rfl, rfl⟩
  | [_] =>
    cases h
    exact .inr ⟨rfl, rfl, rfl⟩
  | [_, _] => cases h
  | [_, _, _] => cases h
  | _ :: _ :: _ :: _ :: before =>
    have := congrArg List.length h
    simp [doublesOne] at this

theorem Program.plainConsts_doublesOne : doublesOne.PlainConsts := by
  refine ⟨fun before v after h => ?_, fun before v after h => ?_, by decide, by decide⟩
  · obtain ⟨rfl, rfl, rfl⟩ | ⟨rfl, rfl, rfl⟩ := consts_doublesOne h
    · exact ⟨rfl, _, rfl, ⟨by decide, by decide⟩, .inl rfl⟩
    · exact ⟨rfl, _, rfl, List.mem_singleton_self _, List.mem_singleton_self _⟩
  · obtain ⟨rfl, rfl, rfl⟩ | ⟨rfl, rfl, rfl⟩ := consts_doublesOne h
    · decide
    · decide

/-- The double folds to two on the way. -/
theorem Expr.exact_doublesOne :
    (Expr.var ⟨0, 0⟩ "b").Exact (Layouts.ofProgram .doublesOne).constants := by
  have named : (Layouts.ofProgram .doublesOne).constants.find? "a" = VarDecl.one.value := rfl
  have doubled : (Layouts.ofProgram .doublesOne).constants.find? "b" =
      some (.binary ⟨0, 0⟩ .add .one .one) := rfl
  obtain ⟨one, -⟩ := exact_one named
  refine exact_var doubled (exact_binary one one (fun c hc => ?_) fun _ hop => by simp at hop)
  have two : Constant.int 2 = c := Option.some.inj (Except.ok.inj hc)
  rw [← two]
  exact ⟨by decide, by decide⟩

/-- Neither the variable nor the entry point does anything to the constants. -/
theorem Exec.sparesConsts_doublesOne : SparesConsts s config
    (constNames Program.doublesOne.declarations) Program.doublesOne.declarations m := by
  refine sparesConsts_of_sparing
    (fun d hd hconst name => Program.plainConsts_doublesOne.valueName?_ne hd hconst)
    fun d hd hconst x hx => ?_
  simp only [Program.doublesOne, List.mem_cons, List.not_mem_nil, or_false] at hd
  obtain rfl | rfl | rfl | rfl := hd
  · cases hconst
  · cases hconst
  · have mentioned : x ∈ [Mention.variable_ "b", .declare "c"] := hx
    rw [List.mem_cons, List.mem_singleton] at mentioned
    obtain rfl | rfl := mentioned <;> trivial
  · cases hx

set_option maxRecDepth 10000 in
/-- The double is two, and so is the size of the workgroup. -/
theorem Exec.folds_of_start_doublesOne : ∃ s l m, Shader.ofProgram .doublesOne = .ok (s, l) ∧
    start s [] { layouts := l } = .ok ((), m) ∧
    (∃ x, (Eval.expr s (Eval.call s) ScopeArena.root (.var ⟨0, 0⟩ "b")).run m = .ok (.ok x, m) ∧
      (Constant.int 2).Becomes x) ∧
    s.function? "main" = some .ofDouble ∧ (Attempt.workgroupSize s .ofDouble).run m = .ok (.ok ⟨2, 1, 1⟩, m) := by
  have checked : (match Shader.ofProgram .doublesOne with
      | .ok (s, l) => decide (s.reflection.functions.map FunctionInfo.workgroupSize = [some (2, 1, 1)] ∧
        (start s [] { layouts := l }).isOk)
      | .error _ => false) = true := by cbv
  cases hs : Shader.ofProgram .doublesOne with
  | error f =>
    rw [hs] at checked
    cases checked
  | ok r =>
    obtain ⟨s, l⟩ := r
    rw [hs] at checked
    obtain ⟨sizes, started⟩ := of_decide_eq_true checked
    obtain ⟨info, hinfo, hsize⟩ := List.map_eq_singleton_iff.1 sizes
    obtain ⟨-, hfunctions, -⟩ := Shader.ofProgram_ok hs
    cases hstart : start s [] { layouts := l } with
    | error e =>
      rw [hstart] at started
      cases started
    | ok r =>
      obtain ⟨⟨⟩, m⟩ := r
      have fresh : ([] : List Call).forM (Call.run s) { layouts := l } = .ok ((), { layouts := l }) := rfl
      obtain ⟨folded, sized⟩ :=
        folds_of_start Program.plainConsts_doublesOne hs fresh sparesConsts_doublesOne hstart
      have elementary : (Expr.var ⟨0, 0⟩ "b").Elementary
          (· ∈ constNames Program.doublesOne.declarations) := by
        change "b" ∈ constNames Program.doublesOne.declarations
        decide
      refine ⟨s, l, m, rfl, hstart, folded _ _ elementary Expr.exact_doublesOne (by rfl), ?_,
        sized .ofDouble info _ 2 1 1 ?_ rfl (fun e he => ?_) hsize⟩
      · unfold Shader.function?
        rw [hfunctions]
        rfl
      · rw [hinfo]
        exact List.mem_singleton_self _
      · rw [List.mem_singleton.1 he]
        exact ⟨elementary, Expr.exact_doublesOne⟩

/-- A module where a variable has the name of the constant. -/
def Program.hidesOne : Program where
  declarations := [.value .const .one, .value .var (.untyped "a" (.literal ⟨0, 0⟩ (.int 2 none)))]

/-- A module where a variable is initialized by a function that assigns to the constant. -/
def Program.assignsOne : Program where
  declarations := [.value .const .one, .function {
    name := "f", args := [], returnType := none, returnAttributes := [], attributes := []
    body := [.simple ⟨0, .assign .plain (some .one) (.literal ⟨0, 0⟩ (.int 2 none))⟩,
      .return_ 0 (some (.literal ⟨0, 0⟩ (.int 0 none)))]
    startLine := 0, endLine := 0 }, .value .var (.untyped "x" (.call ⟨0, 0⟩ "f" []))]

/-- What the name of the constant evaluates to after a start. -/
def Exec.evaluatesOne (p : Program) : Except Fault (Run Value) := do
  let (s, l) ← Shader.ofProgram p
  let (_, m) ← start s [] { layouts := l }
  return (← (Eval.expr s (Eval.call s) ScopeArena.root .one).run m).1

theorem Exec.of_evaluatesOne {r : Run Value} (h : evaluatesOne p = .ok r) : ∃ s l m m₁,
    Shader.ofProgram p = .ok (s, l) ∧ start s [] { layouts := l } = .ok ((), m) ∧
      (Eval.expr s (Eval.call s) ScopeArena.root .one).run m = .ok (r, m₁) := by
  obtain ⟨⟨s, l⟩, hs, h⟩ := Fault.bind_ok h
  obtain ⟨⟨_, m⟩, hstart, h⟩ := Fault.bind_ok h
  obtain ⟨⟨_, m₁⟩, hrun, h⟩ := Fault.bind_ok h
  cases h
  exact ⟨s, l, m, m₁, hs, hstart, hrun⟩

/-- The only constant of the module folds to one, but evaluates to two. -/
def Exec.MistakesOne (p : Program) : Prop :=
  p.values .const = [.one] ∧ Expr.one.Exact (Layouts.ofProgram p).constants ∧
    Expr.fold (Layouts.ofProgram p).constants .one = .ok (some (.int 1)) ∧ ∃ s l m m₁,
      Shader.ofProgram p = .ok (s, l) ∧ start s [] { layouts := l } = .ok ((), m) ∧
        (Eval.expr s (Eval.call s) ScopeArena.root .one).run m = .ok (.ok (.i32 2), m₁)

set_option maxRecDepth 10000 in
theorem Exec.mistakes_hidden_assigned : MistakesOne .hidesOne ∧ MistakesOne .assignsOne := by
  have hidden : evaluatesOne .hidesOne = .ok (.ok (.i32 2)) := by cbv
  have assigned : evaluatesOne .assignsOne = .ok (.ok (.i32 2)) := by cbv
  have named : (Layouts.ofProgram .hidesOne).constants.find? "a" = VarDecl.one.value := rfl
  have named' : (Layouts.ofProgram .assignsOne).constants.find? "a" = VarDecl.one.value := rfl
  obtain ⟨hx, hf⟩ := Expr.exact_one named
  obtain ⟨hx', hf'⟩ := Expr.exact_one named'
  exact ⟨⟨rfl, hx, hf, of_evaluatesOne hidden⟩, ⟨rfl, hx', hf', of_evaluatesOne assigned⟩⟩

end Wgsl
