import Wgsl.Proofs.Layout.Coherent

/-! # Reflecting twice

A reflection that is asked for again finds everything laid out. It gives what it gave before, but for
the marks of structures in use: the marks of annotated structures are never taken off, and the walk
that marks what a type is made of stops at them.

* `LayoutM.Recalls`: asked again, a computation gives the same answer and changes no more than which
  structures are in use.
* `LayoutM.Repeats`: as long as no annotated structure is in use, it brings the same into use, too.
* `Reflection.ofProgram_again`: a second reflection.
-/

namespace Wgsl
set_option autoImplicit false

mutual

/-- What is in use stays in use. -/
theorem TypeInfo.subset_markInUse : ∀ (t : TypeInfo) (live : List StructKey), live ⊆ t.markInUse live
  | .mk _ _ _ _ shape, live => TypeShape.subset_markInUse shape live

theorem TypeShape.subset_markInUse : ∀ (shape : TypeShape) (live : List StructKey),
    live ⊆ shape.markInUse live
  | .struct key members _ _, live => by
    rw [TypeShape.markInUse]
    split
    · exact List.Subset.refl live
    · exact List.Subset.trans (List.subset_cons_self key live) (MemberInfo.subset_markInUse members _)
  | .array element _ _, live => TypeInfo.subset_markInUse element live
  | .template _ param _ _, live => TypeInfo.subset_markParamInUse param live
  | .scalar _, live => List.Subset.refl live
  | .handle, live => List.Subset.refl live

theorem MemberInfo.subset_markInUse : ∀ (members : List MemberInfo) (live : List StructKey),
    live ⊆ MemberInfo.markInUse members live
  | [], live => List.Subset.refl live
  | .mk _ type _ _ _ :: rest, live =>
    List.Subset.trans (TypeInfo.subset_markInUse type live) (MemberInfo.subset_markInUse rest _)

theorem TypeInfo.subset_markParamInUse : ∀ (param : Option TypeInfo) (live : List StructKey),
    live ⊆ TypeInfo.markParamInUse param live
  | none, live => List.Subset.refl live
  | some t, live => TypeInfo.subset_markInUse t live

end

namespace LayoutM

variable {α β : Type} {l f : Layouts}

/-- Once it has been run, the computation has its answer as long as nothing is forgotten. -/
def Settles (x : LayoutM α) : Prop :=
  ∀ l a l', l.inProgress = [] → x.run l = .ok (a, l') →
    l.Grows l' ∧ ∀ f, l'.Extends f → x.run f = .ok (a, f)

/-- Run again, the computation ends as before, and brings nothing into use. -/
def Recalls (x : LayoutM α) : Prop :=
  ∀ l a l', l.inProgress = [] → x.run l = .ok (a, l') →
    l.Extends l' ∧ ∀ f, l'.Extends f → ∃ live, live ⊆ f.live ∧ x.run f = .ok (a, { f with live })

/-- No annotated structure is in use. -/
def Unannotated (live : List StructKey) : Prop := ∀ id, StructKey.annotated id ∉ live

/-- Run again, the computation ends as before. It takes nothing out of use, and it brings the same
into use again unless an annotated structure is in use at its end. -/
def Repeats (x : LayoutM α) : Prop :=
  ∀ l a l', l.inProgress = [] → x.run l = .ok (a, l') →
    l.Extends l' ∧ l.live ⊆ l'.live ∧ ∀ f, l'.Extends f → ∃ live, x.run f = .ok (a, { f with live }) ∧
      (Unannotated l'.live → f.live = l.live → live = l'.live)

/-- Constants are the same in all that extends a memory. -/
theorem run_constants {g : Table Expr → LayoutM α} (h : l.Extends f) :
    (get >>= fun l => g l.constants : LayoutM α).run f = (g l.constants).run f := by
  rw [run_get, h.constants]

theorem settles_lift (r : Except Fault α) : Settles (liftM r : LayoutM α) := by
  intro l a l' _ h
  cases r with
  | error f => cases h
  | ok b =>
    cases h
    exact ⟨.refl l, fun f _ => rfl⟩

theorem Settles.recalls {x : LayoutM α} (h : Settles x) : Recalls x := by
  intro l a l' hidle hrun
  obtain ⟨grows, again⟩ := h l a l' hidle hrun
  exact ⟨grows.toExtends, fun f hf => ⟨f.live, List.Subset.refl _, again f hf⟩⟩

theorem Settles.repeats {x : LayoutM α} (h : Settles x) : Repeats x := by
  intro l a l' hidle hrun
  obtain ⟨grows, again⟩ := h l a l' hidle hrun
  obtain ⟨added, hlive, hadded⟩ := grows.live
  refine ⟨grows.toExtends, ?_, fun f hf => ⟨f.live, again f hf, fun hu hf => ?_⟩⟩
  · rw [hlive]
    exact List.subset_append_right added l.live
  · have none_added : added = [] := by
      refine List.eq_nil_iff_forall_not_mem.2 fun key hkey => ?_
      obtain ⟨id, rfl⟩ := hadded key hkey
      exact hu id (hlive ▸ List.mem_append_left l.live hkey)
    rw [hf, hlive, none_added, List.nil_append]

def recalling : Passing where
  obeys x := Recalls x
  obeys_pure a := (settles_lift (.ok a)).recalls
  obeys_bind hx hg l b l₂ hidle h := by
    obtain ⟨a, l₁, h₁, h₂⟩ := bind_ok h
    obtain ⟨first, again⟩ := hx l a l₁ hidle h₁
    obtain ⟨second, again'⟩ := hg a l₁ b l₂ (first.inProgress.trans hidle) h₂
    refine ⟨first.trans second, fun f hf => ?_⟩
    obtain ⟨live, hsub, run⟩ := again f (second.trans hf)
    obtain ⟨live', hsub', run'⟩ := again' { f with live } (hf.live live)
    exact ⟨live', List.Subset.trans hsub' hsub, (run_bind_ok run).trans run'⟩
  obeys_lift r := (settles_lift r).recalls
  obeys_constants h l a l' hidle hrun := by
    obtain ⟨extends_, again⟩ := h l.constants l a l' hidle hrun
    refine ⟨extends_, fun f hf => ?_⟩
    obtain ⟨live, hsub, run⟩ := again f hf
    exact ⟨live, hsub, (run_constants (extends_.trans hf)).trans run⟩

theorem settles_typeInfo (t : TypeExpr) : Settles (typeInfo t) := by
  refine fun l info l' _ h => ⟨growing_typeInfo t l info l' h, fun f hf => ?_⟩
  obtain ⟨depth, _, hdepth, h⟩ := bind_ok h
  cases hdepth
  rw [typeInfo, run_bind_ok (x := nesting) rfl, typeInfoOf_eq, remembering, run_get,
    hf.byNode t.id info (typeInfoOf_remembers h)]
  rfl

theorem settles_structInfo (name : String) : Settles (structInfo name) := by
  refine fun l found l' hidle h => ⟨growing_structInfo name l found l' h, fun f hf => ?_⟩
  obtain ⟨depth, _, hdepth, h⟩ := bind_ok h
  cases hdepth
  rw [structInfo, run_bind_ok (x := nesting) rfl, structInfoWith, run_get]
  obtain ⟨_, _, hget, h⟩ := bind_ok h
  cases hget
  split at h
  · rename_i info hinfo
    cases h
    rw [hf.byStruct name info hinfo]
    rfl
  · rename_i hnew
    split at h
    · rename_i hdecl
      cases h
      rw [hf.undeclared name hdecl, hnew, hf.structs, hdecl]
      rfl
    · rename_i decl hdecl
      rw [hidle] at h
      obtain ⟨_, l₁, hset, h⟩ := bind_ok h
      obtain ⟨info, l₂, -, h⟩ := bind_ok h
      obtain ⟨_, l₃, hmodify, h⟩ := bind_ok h
      cases hmodify
      cases h
      rw [hf.byStruct name info (Table.find?_insert_self _ _ _)]
      rfl

end LayoutM

namespace Reflection

open LayoutM

variable {p : Program} {l l' : Layouts}

/-- What follows the round over the structures repeats itself. -/
def repeating : Asking where
  obeys x := Repeats x
  obeys_pure a := (settles_lift (.ok a)).repeats
  obeys_bind hx hg l b l₂ hidle h := by
    obtain ⟨a, l₁, h₁, h₂⟩ := bind_ok h
    obtain ⟨first, used, again⟩ := hx l a l₁ hidle h₁
    obtain ⟨second, used', again'⟩ := hg a l₁ b l₂ (first.inProgress.trans hidle) h₂
    refine ⟨first.trans second, List.Subset.trans used used', fun f hf => ?_⟩
    obtain ⟨live, run, same⟩ := again f (second.trans hf)
    obtain ⟨live', run', same'⟩ := again' { f with live } (hf.live live)
    refine ⟨live', (run_bind_ok run).trans run', fun hu hlive => same' hu (same ?_ hlive)⟩
    exact fun id hid => hu id (used' hid)
  obeys_lift r := (settles_lift r).repeats
  obeys_constants h l a l' hidle hrun := by
    obtain ⟨extends_, used, again⟩ := h l.constants l a l' hidle hrun
    refine ⟨extends_, used, fun f hf => ?_⟩
    obtain ⟨live, run, same⟩ := again f hf
    exact ⟨live, (run_constants (extends_.trans hf)).trans run, same⟩
  obeys_typeInfo t _ := (settles_typeInfo t).repeats
  obeys_structInfo name := (settles_structInfo name).repeats
  obeys_use t l a l' _ h := by
    cases h
    refine ⟨(Layouts.Extends.refl l).live _, t.subset_markInUse l.live, fun f _ =>
      ⟨t.markInUse f.live, rfl, fun _ hlive => ?_⟩⟩
    rw [hlive]

theorem recalls_reset (s : StructDecl) : Recalls (reset s) := by
  refine recalling.obeys_bind (settles_structInfo s.name).recalls fun info => ?_
  refine recalling.obeys_bind (fun l _ l' _ h => ?_) fun _ => recalling.obeys_pure info
  cases h
  exact ⟨(Layouts.Extends.refl l).live _, fun f _ => ⟨_, fun key hkey => (List.mem_filter.1 hkey).1, rfl⟩⟩

/-- After the round over the structures none of them is in use. -/
theorem live_of_reset : ∀ {decls : List StructDecl} {infos : List (Option TypeInfo)} {l l' : Layouts},
    (decls.mapM reset).run l = .ok (infos, l') → ∀ key ∈ l'.live,
      (key ∈ l.live ∨ ∃ id, key = .annotated id) ∧ ∀ s ∈ decls, key ≠ .declared s.name
  | [], infos, l, l', h => by
    cases h
    exact fun key hkey => ⟨Or.inl hkey, nofun⟩
  | s :: decls, infos, l, l', h => by
    rw [List.mapM_cons] at h
    obtain ⟨info, l₁, h₁, h⟩ := bind_ok h
    obtain ⟨rest, l₂, h₂, h⟩ := bind_ok h
    cases h
    obtain ⟨_, l₃, hinfo, h₁⟩ := bind_ok h₁
    cases h₁
    obtain ⟨added, hlive, hadded⟩ := (growing_structInfo s.name _ _ _ hinfo).live
    intro key hkey
    obtain ⟨known, others⟩ := live_of_reset h₂ key hkey
    rcases known with known | ⟨id, rfl⟩
    · obtain ⟨known, apart⟩ := List.mem_filter.1 known
      refine ⟨?_, List.forall_mem_cons.2 ⟨of_decide_eq_true apart, others⟩⟩
      rw [hlive] at known
      exact (List.mem_append.1 known).elim (Or.inr ∘ hadded key) Or.inl
    · exact ⟨Or.inr ⟨id, rfl⟩, List.forall_mem_cons.2 ⟨nofun, others⟩⟩

/-- What a reflection finds out after the round over the structures. -/
structure Survey where
  aliases : List (String × TypeInfo)
  /-- For each declaration the resource or the override that it is. -/
  found : List (Option Resource × Option OverrideInfo)
  functions : List FunctionInfo

namespace Survey

def bound (found : List (Option Resource × Option OverrideInfo)) (kinds : List ResourceKind) :
    List Resource :=
  (found.filterMap Prod.fst).filter fun v => kinds.contains v.kind

def functionsOf (p : Program) (found : List (Option Resource × Option OverrideInfo))
    (structs : Table StructDecl) : LayoutM (List FunctionInfo) :=
  let resources := bound found [.uniform] ++ bound found [.storage] ++
    bound found [.texture, .storageTexture] ++ bound found [.sampler]
  let watched : Watched :=
    { resources := resources.map Resource.name
      overrides := (found.filterMap Prod.snd).map OverrideInfo.name
      structs := structs.map Prod.fst }
  let scans := p.functions.foldl
    (fun (t : Table BodyScan) f => t.insert f.name (BodyScan.ofFunction watched f)) []
  p.functions.mapM (functionOf p resources (CallGraph.ofProgram p) scans
    ((CallGraph.ofProgram p).reachable p))

def ofProgram (p : Program) : LayoutM Survey := do
  let aliases ← p.aliases.mapM fun a => do return (a.name, ← LayoutM.typeInfo a.type)
  let found ← p.declarations.mapM fun d => do
    match d with
    | .value .var v => return (← resourceOf v, none)
    | .value .override v => return (none, some (← overrideOf v))
    | _ => return ((none : Option Resource), (none : Option OverrideInfo))
  let functions ← functionsOf p found (← get).structs
  return { aliases, found, functions }

/-- The reflection with the structures that come first and the memory in the end. -/
def toReflection (s : Survey) (structs : List (Option TypeInfo)) (l : Layouts) : Reflection where
  structs := structs.filterMap id
  aliases := s.aliases
  uniforms := bound s.found [.uniform]
  storage := bound s.found [.storage]
  textures := bound s.found [.texture, .storageTexture]
  samplers := bound s.found [.sampler]
  overrides := s.found.filterMap Prod.snd
  functions := s.functions
  layoutErrors := l.errors
  live := l.live

end Survey

/-- A reflection is put together from the structures, a survey and the memory in the end. -/
theorem ofProgram_eq (p : Program) : Reflection.ofProgram p = (do
    let structs ← p.structs.mapM reset
    let survey ← Survey.ofProgram p
    return survey.toReflection structs (← get)) := by
  unfold Reflection.ofProgram Survey.ofProgram
  rw [filterMapM_eq, map_eq_pure_bind]
  simp only [bind_assoc, pure_bind]
  refine bind_congr fun structs => bind_congr fun aliases => bind_congr fun found => ?_
  refine bind_congr fun before => ?_
  refine bind_congr fun functions => ?_
  refine bind_congr fun after => ?_
  simp only [Survey.toReflection, Survey.bound]

theorem repeats_functionsOf (p : Program) (found : List (Option Resource × Option OverrideInfo))
    (structs : Table StructDecl) : Repeats (Survey.functionsOf p found structs) := by
  unfold Survey.functionsOf
  exact Passing.obeys_mapM (C := repeating.toPassing) fun f _ => Asking.obeys_functionOf f

/-- The names of structures are the only thing read off the memory itself. -/
theorem repeats_structs {α : Type} {g : Table StructDecl → LayoutM α} (h : ∀ structs, Repeats (g structs)) :
    Repeats (get >>= fun l => g l.structs) := by
  intro l a l' hidle hrun
  obtain ⟨extends_, used, again⟩ := h l.structs l a l' hidle hrun
  refine ⟨extends_, used, fun f hf => ?_⟩
  obtain ⟨live, run, same⟩ := again f hf
  refine ⟨live, Eq.trans ?_ run, same⟩
  rw [run_get, (extends_.trans hf).structs]

theorem repeats_survey (p : Program) : Repeats (Survey.ofProgram p) := by
  unfold Survey.ofProgram
  refine repeating.obeys_bind (Passing.obeys_mapM fun a _ => Questioning.obeys_aliasOf trivial) fun aliases => ?_
  refine repeating.obeys_bind (Passing.obeys_mapM fun d _ => Questioning.obeys_found fun _ _ => trivial)
    fun found => ?_
  refine repeats_structs (g := fun structs => do
    let functions ← Survey.functionsOf p found structs
    return ({ aliases, found, functions } : Survey)) fun structs => ?_
  exact repeating.obeys_bind (repeats_functionsOf p found structs) fun _ => repeating.obeys_pure _

/-- The structures in use at the end of a reflection were none of them in use before the functions
were reflected, provided that all of them are declared. -/
theorem live_eq_nil {decls : List StructDecl} {infos : List (Option TypeInfo)} {live : List StructKey}
    (hrun : (decls.mapM reset).run l = .ok (infos, l')) (hsub : l'.live ⊆ live)
    (hlive : ∀ key ∈ live, ∃ s ∈ decls, key = .declared s.name) : l'.live = [] := by
  refine List.eq_nil_iff_forall_not_mem.2 fun key hkey => ?_
  obtain ⟨s, hs, he⟩ := hlive key (hsub hkey)
  exact (live_of_reset hrun key hkey).2 s hs he

/-- A second reflection of a module gives what the first one gave, but for the marks of structures in
use. If only declared structures were in use, and no annotated copy of one, it gives the same marks,
too. -/
theorem ofProgram_again {r : Reflection} (hidle : l.inProgress = [])
    (h : (Reflection.ofProgram p).run l = .ok (r, l')) :
    ∃ r' l'', (Reflection.ofProgram p).run l' = .ok (r', l'') ∧ r' = { r with live := r'.live } ∧
      ((∀ key ∈ r.live, ∃ s ∈ p.structs, key = .declared s.name) → r' = r) := by
  rw [ofProgram_eq] at h ⊢
  obtain ⟨structs, l₁, first, h⟩ := bind_ok h
  obtain ⟨survey, l₂, second, h⟩ := bind_ok h
  obtain ⟨_, _, hget, h⟩ := bind_ok h
  cases hget
  cases h
  obtain ⟨extends₁, again₁⟩ := Passing.obeys_mapM (C := recalling) (fun s _ => recalls_reset s)
    l _ _ hidle first
  obtain ⟨extends₂, used, again₂⟩ := repeats_survey p l₁ _ _ (extends₁.inProgress.trans hidle) second
  obtain ⟨live₁, hsub, first'⟩ := again₁ l' extends₂
  obtain ⟨live₂, second', same⟩ := again₂ { l' with live := live₁ } ((Layouts.Extends.refl l').live live₁)
  refine ⟨_, _, (run_bind_ok first').trans (run_bind_ok second'), rfl, fun hlive => ?_⟩
  have plain : Unannotated l'.live := fun id hid => by
    obtain ⟨s, -, he⟩ := hlive _ hid
    cases he
  have unused : l₁.live = [] := live_eq_nil first used hlive
  have unused' : live₁ = [] := live_eq_nil first' hsub hlive
  rw [same plain (unused'.trans unused.symm)]

/-- A structure within a structure, as the type of a uniform variable with attributes of its own. -/
def nestedUniform (attributes : List Attribute) : Program where
  declarations := [
    .struct {
      name := "Inner", members := [⟨"a", .named 0 [] "f32", []⟩], attributes := []
      startLine := 1, endLine := 1 },
    .struct {
      name := "Outer", members := [⟨"b", .named 1 [] "Inner", []⟩], attributes := []
      startLine := 2, endLine := 2 },
    .value .var {
      name := "u", type := some (.named 2 attributes "Outer"), storage := some "uniform", access := none
      value := none, attributes := [], line := 3 },
    .function {
      name := "main", args := [], returnType := none, returnAttributes := []
      attributes := [.mk "compute" [] 4]
      body := [.simple ⟨4, .declare .let_ {
        name := "x", type := none, storage := none, access := none, value := some (.var ⟨3, 4⟩ "u")
        attributes := [], line := 4 }⟩]
      startLine := 4, endLine := 4 }]

/-- The structures in use after a first and after a second reflection. -/
def livesTwice (p : Program) : Except Fault (List StructKey × List StructKey) := do
  let (r, l) ← (Reflection.ofProgram p).run (Layouts.ofProgram p)
  let (r', _) ← (Reflection.ofProgram p).run l
  return (r.live, r'.live)

theorem of_livesTwice {live live' : List StructKey} (h : livesTwice p = .ok (live, live')) :
    ∃ r l r' l', (Reflection.ofProgram p).run (Layouts.ofProgram p) = .ok (r, l) ∧
      (Reflection.ofProgram p).run l = .ok (r', l') ∧ r.live = live ∧ r'.live = live' := by
  obtain ⟨⟨r, l⟩, first, h⟩ := Fault.bind_ok h
  obtain ⟨⟨r', l'⟩, second, h⟩ := Fault.bind_ok h
  cases h
  exact ⟨r, l, r', l', first, second, rfl, rfl⟩

/-- Both structures are in use, the second time as the first time. -/
theorem ofProgram_again_nestedUniform : ∃ r l l',
    (Reflection.ofProgram (nestedUniform [])).run (Layouts.ofProgram (nestedUniform [])) = .ok (r, l) ∧
    r.live = [.declared "Inner", .declared "Outer"] ∧
    (Reflection.ofProgram (nestedUniform [])).run l = .ok (r, l') := by
  have lives : livesTwice (nestedUniform []) = .ok
      ([.declared "Inner", .declared "Outer"], [.declared "Inner", .declared "Outer"]) := by cbv
  obtain ⟨r, l, -, -, first, -, hlive, -⟩ := of_livesTwice lives
  obtain ⟨r', l', second, -, same⟩ := ofProgram_again rfl first
  have declared : r' = r := same (by rw [hlive]; decide)
  exact ⟨r, l, l', first, hlive, declared ▸ second⟩

/-- With attributes the variable has a copy of the outer structure. The copy stays marked, and the
inner structure is not in use the second time. -/
theorem ofProgram_again_annotated : ∃ r l r' l',
    let p := nestedUniform [.mk "size" [.literal ⟨4, 3⟩ (.int 16 none)] 3]
    (Reflection.ofProgram p).run (Layouts.ofProgram p) = .ok (r, l) ∧
    (Reflection.ofProgram p).run l = .ok (r', l') ∧
    r.isInUse (.declared "Inner") = true ∧ r'.isInUse (.declared "Inner") = false := by
  have lives : livesTwice (nestedUniform [.mk "size" [.literal ⟨4, 3⟩ (.int 16 none)] 3]) = .ok
      ([.declared "Inner", .annotated 2], [.annotated 2]) := by cbv
  obtain ⟨r, l, r', l', first, second, hlive, hlive'⟩ := of_livesTwice lives
  refine ⟨r, l, r', l', first, second, ?_, ?_⟩
  · rw [isInUse, hlive]
    decide
  · rw [isInUse, hlive']
    decide

end Reflection

end Wgsl
