import Wgsl.Proofs.Layout.Laying
import Wgsl.Reflect

/-! # What is settled when a module has been reflected

Laying out forgets nothing. When a module has been reflected, every structure and the target of every
alias has been laid out, so no name needs to be laid out any more.

* `LayoutM.growing_typeInfo`, `LayoutM.growing_structInfo`: laying out extends the memory.
* `Reflection.functionOf_eq`: reflecting a function asks questions first and then marks what is in use.
* `Reflection.Questioning`, `Reflection.Asking`: a property that passes from the questions of a
  reflection to all that it does with one declaration.
* `Reflection.settled_ofProgram`: all names are settled.
-/

namespace Wgsl
set_option autoImplicit false

namespace LayoutM

variable {α β : Type} {named : String → LayoutM TypeInfo}

/-- A node is remembered once: what has been remembered for it before stays. -/
theorem growing_remembering (id : NodeId) {x : LayoutM TypeInfo} (hx : Growing x) :
    Growing (remembering id x) := by
  intro l info l' h
  obtain ⟨_, _, hget, h⟩ := bind_ok h
  cases hget
  split at h
  · cases h
    exact .refl l
  · rename_i hnew
    obtain ⟨laid, l₁, hlaid, h⟩ := bind_ok h
    obtain ⟨_, l₂, hmodify, h⟩ := bind_ok h
    cases hmodify
    cases h
    have inner := hx _ _ _ hlaid
    refine { inner with byNode := fun other known hknown => ?_ }
    have apart : other ≠ id := by
      rintro rfl
      rw [hnew] at hknown
      cases hknown
    rw [List.lookup_cons, beq_false_of_ne apart]
    exact inner.byNode other known hknown

theorem growing_typeInfoOf (hn : ∀ name, Growing (named name)) (t : TypeExpr) :
    Growing (typeInfoOf named t) :=
  Laying.obeys_typeInfoOf (C := growing) (T := fun _ => True) hn (fun _ _ _ _ => trivial)
    (fun t _ h => growing_remembering t.id h) t trivial

theorem growing_structInfoOf (hn : ∀ name, Growing (named name)) (decl : StructDecl) :
    Growing (structInfoOf named decl) := by
  have number : ∀ attributes name, Growing (attributeNumber? attributes name) := fun _ _ =>
    Passing.obeys_attributeNumber? (C := growing.toPassing) _ _
  refine growing_bind (Passing.obeys_foldlM (C := growing.toPassing) (fun placed m _ => ?_) _)
    fun placed => ?_
  · refine growing_bind (growing_typeInfoOf hn m.type) fun type => ?_
    refine growing_bind (number _ _) fun align => growing_bind (number _ _) fun size => ?_
    exact growing.obeys_pure _
  · refine growing_bind (Laying.obeys_sizeOr (C := growing) _ _) fun size => ?_
    exact growing.obeys_pure _

theorem growing_structInfoWith (hn : ∀ name, Growing (named name)) (name : String) :
    Growing (structInfoWith named name) := by
  intro l found l' h
  obtain ⟨_, _, hget, h⟩ := bind_ok h
  cases hget
  split at h
  · cases h
    exact .refl l
  · rename_i hnew
    split at h
    · cases h
      exact .refl l
    · rename_i decl hdecl
      split at h
      · cases h
        exact .refl l
      · obtain ⟨_, l₁, hset, h⟩ := bind_ok h
        cases hset
        obtain ⟨info, l₂, hinfo, h⟩ := bind_ok h
        obtain ⟨_, l₃, hmodify, h⟩ := bind_ok h
        cases hmodify
        cases h
        have inner := growing_structInfoOf hn decl _ info l₂ hinfo
        have kept : ∀ other, other ≠ name →
            (l₂.byStruct.insert name info).find? other = l₂.byStruct.find? other := fun other he =>
          Table.find?_insert_of_ne _ _ he
        refine ⟨⟨inner.structs, inner.aliases, inner.constants, ?_, inner.byNode,
          fun other known hknown => ?_, fun other hother => ?_⟩, inner.live⟩
        · dsimp only
          rw [inner.inProgress, List.erase_cons_head]
        · have apart : other ≠ name := by
            rintro rfl
            rw [hnew] at hknown
            cases hknown
          exact (kept other apart).trans (inner.byStruct other known hknown)
        · have apart : other ≠ name := by
            rintro rfl
            rw [hdecl] at hother
            cases hother
          exact (kept other apart).trans (inner.undeclared other hother)

theorem growing_namedWithin (depth : Nat) : ∀ name, Growing (namedWithin depth name) := by
  induction depth with
  | zero => exact fun name => growing.obeys_pure _
  | succ depth ih =>
    intro name
    refine growing_bind (growing_structInfoWith ih name) fun info? => ?_
    cases info? with
    | some info => exact growing.obeys_pure _
    | none =>
      refine growing_get fun l => ?_
      dsimp only
      split
      · exact growing_typeInfoOf ih _
      · refine growing_get fun l => ?_
        split
        · exact growing.obeys_pure _
        · intro l info l' h
          cases h
          exact ⟨⟨rfl, rfl, rfl, rfl, fun _ _ => id, fun _ _ => id, fun _ _ => rfl⟩, [], rfl,
            fun _ h => absurd h List.not_mem_nil⟩

theorem growing_nesting : Growing nesting := growing_get fun _ => growing.obeys_pure _

theorem growing_typeInfo (t : TypeExpr) : Growing (typeInfo t) :=
  growing_bind growing_nesting fun depth => growing_typeInfoOf (growing_namedWithin depth) t

theorem growing_structInfo (name : String) : Growing (structInfo name) :=
  growing_bind growing_nesting fun depth =>
    growing_structInfoWith (growing_namedWithin depth) name

/-! ## What is remembered -/

theorem typeInfoOf_remembers {t : TypeExpr} {l l' : Layouts} {info : TypeInfo}
    (h : (typeInfoOf named t).run l = .ok (info, l')) : l'.byNode.lookup t.id = some info := by
  rw [typeInfoOf_eq] at h
  obtain ⟨_, _, hget, h⟩ := bind_ok h
  cases hget
  split at h
  · cases h
    assumption
  · obtain ⟨laid, l₁, -, h⟩ := bind_ok h
    obtain ⟨_, l₂, hmodify, h⟩ := bind_ok h
    cases hmodify
    cases h
    simp

theorem structInfoWith_remembers {name : String} {decl : StructDecl} {l l' : Layouts}
    {found : Option TypeInfo} (hidle : l.inProgress = [])
    (hdecl : l.structs.find? name = some decl)
    (h : (structInfoWith named name).run l = .ok (found, l')) :
    (l'.byStruct.find? name).isSome := by
  obtain ⟨_, _, hget, h⟩ := bind_ok h
  cases hget
  split at h
  · cases h
    rename_i hfound
    rw [hfound]
    rfl
  · rw [hdecl] at h
    dsimp only at h
    rw [hidle] at h
    obtain ⟨_, l₁, hset, h⟩ := bind_ok h
    obtain ⟨info, l₂, -, h⟩ := bind_ok h
    obtain ⟨_, l₃, hmodify, h⟩ := bind_ok h
    cases hmodify
    cases h
    rw [Table.find?_insert_self]
    rfl

end LayoutM

/-! ## Reflecting -/

/-- The types that a reflection lays out for a declaration. -/
def Declaration.types : Declaration → List TypeExpr
  | .struct s => s.members.map Field.type
  | .alias_ a => [a.type]
  | .value .const _ => []
  | .value .var v | .value .override v => v.type.toList
  | .function f => f.args.map Field.type ++ f.returnType.toList
  | .constAssert _ | .enable _ | .requires _ | .diagnostic _ _ => []

namespace Reflection

open LayoutM

variable {p : Program}

/-- A property of computations that the questions of a reflection about some types have. -/
structure Questioning (T : TypeExpr → Prop) extends Passing where
  obeys_typeInfo : ∀ t : TypeExpr, T t → obeys (typeInfo t)
  obeys_structInfo : ∀ name : String, obeys (structInfo name)

/-- A property of computations that all questions of a reflection have, and marking types, too. -/
structure Asking extends Questioning fun _ => True where
  obeys_use : ∀ t : TypeInfo, obeys (use t)

/-! ### The parts of reflecting a function -/

/-- The inputs of an entry point. Other functions have none. -/
def inputsOf (p : Program) (f : Function) : LayoutM (List StageVariable) :=
  if (stageOf f).isSome then
    List.flatten <$> f.args.mapM fun a =>
      stageVariables p (p.structs.length + 1) a.name a.attributes a.type
  else pure []

/-- The outputs of an entry point. Other functions have none. -/
def outputsOf (p : Program) (f : Function) : LayoutM (List StageVariable) :=
  match stageOf f, f.returnType with
  | some _, some t => stageVariables p (p.structs.length + 1) "return" f.returnAttributes t
  | _, _ => pure []

/-- The size of a workgroup of an entry point, if one is written. -/
def workgroupOf (f : Function) : LayoutM (Option (Nat × Nat × Nat)) :=
  match f.attribute? "workgroup_size" with
  | some a => workgroupSize? a
  | none => pure none

/-- What the bodies mention that a function gets to. -/
def collected (part : BodyScan → List String) (graph : CallGraph) (scans : Table BodyScan)
    (name : String) : List String :=
  ((graph.transitive name).reverse.filterMap scans.find?).foldl (fun names s => union names (part s)) []

/-- Marks what a function that can run has in its signature, mentions and can touch. -/
def useAll (resources : List Resource) (args : List (String × TypeInfo)) (returnType : Option TypeInfo)
    (structs used : List String) : LayoutM Unit := do
  args.forM fun (_, t) => use t
  returnType.forM use
  structs.forM fun name => do
    if let some t ← LayoutM.structInfo name then use t
  used.forM fun name =>
    match resources.find? fun v => v.name = name with
    | some v => use v.type
    | none => pure ()

theorem functionOf_eq (p : Program) (resources : List Resource) (graph : CallGraph)
    (scans : Table BodyScan) (running : List String) (f : Function) :
    functionOf p resources graph scans running f = (do
      let args ← f.args.mapM fun a => do return (a.name, ← LayoutM.typeInfo a.type)
      let returnType ← f.returnType.mapM LayoutM.typeInfo
      let inputs ← inputsOf p f
      let outputs ← outputsOf p f
      let workgroupSize ← workgroupOf f
      if running.contains f.name then
        useAll resources args returnType (collected BodyScan.structs graph scans f.name)
          (collected BodyScan.resources graph scans f.name)
      return {
        name := f.name, stage := stageOf f, args, returnType, inputs, outputs
        resources := collected BodyScan.resources graph scans f.name
        calls := graph.direct f.name
        overrides := collected BodyScan.overrides graph scans f.name
        workgroupSize, inUse := running.contains f.name, startLine := f.startLine
        endLine := f.endLine }) := by
  unfold functionOf
  refine bind_congr fun args => bind_congr fun returnType => ?_
  -- each part is settled before what follows it, whichever way it is come to
  have inputs : ∀ {β : Type} (rest : List StageVariable → LayoutM β),
      (if (stageOf f).isSome then (List.flatten <$> f.args.mapM fun a =>
          stageVariables p (p.structs.length + 1) a.name a.attributes a.type) >>= rest
        else pure [] >>= rest) = inputsOf p f >>= rest := by
    intro β rest
    unfold inputsOf
    split <;> rfl
  refine (inputs _).trans (bind_congr fun inputs => ?_)
  have outputs : ∀ {β : Type} (rest : List StageVariable → LayoutM β), (match stageOf f, f.returnType with
      | some _, some t => stageVariables p (p.structs.length + 1) "return" f.returnAttributes t >>= rest
      | _, _ => pure [] >>= rest) = outputsOf p f >>= rest := by
    intro β rest
    unfold outputsOf
    split <;> rfl
  refine (outputs _).trans (bind_congr fun outputs => ?_)
  have size : ∀ {β : Type} (rest : Option (Nat × Nat × Nat) → LayoutM β),
      (match f.attribute? "workgroup_size" with
      | some a => workgroupSize? a >>= rest
      | none => pure none >>= rest) = workgroupOf f >>= rest := by
    intro β rest
    unfold workgroupOf
    split <;> rfl
  refine (size _).trans (bind_congr fun size => ?_)
  unfold useAll
  dsimp only
  by_cases hrun : running.contains f.name = true
  · rw [if_pos hrun, if_pos hrun]
    simp only [bind_assoc]
    rfl
  · rw [if_neg hrun, if_neg hrun]
    rfl
namespace Questioning

variable {T : TypeExpr → Prop} {C : Questioning T}

theorem obeys_number? (attributes : List Attribute) (name : String) :
    C.obeys (number? attributes name) :=
  Passing.obeys_attributeNumber? attributes name

theorem obeys_option {t? : Option TypeExpr} (ht : ∀ t ∈ t?, T t) : C.obeys (t?.mapM typeInfo) := by
  cases t? with
  | none => exact C.obeys_pure _
  | some t => exact C.obeys_bind (C.obeys_typeInfo t (ht t rfl)) fun _ => C.obeys_pure _

theorem obeys_resourceOf {v : VarDecl} (hv : ∀ t ∈ v.type, T t) : C.obeys (resourceOf v) := by
  unfold resourceOf
  split
  · exact C.obeys_pure _
  · rename_i t ht
    refine C.obeys_bind (C.obeys_typeInfo t (hv t ht)) fun type => ?_
    split
    · exact C.obeys_pure _
    · refine C.obeys_bind (obeys_number? _ _) fun group => ?_
      exact C.obeys_bind (obeys_number? _ _) fun binding => C.obeys_pure _

theorem obeys_overrideOf {v : VarDecl} (hv : ∀ t ∈ v.type, T t) : C.obeys (overrideOf v) :=
  C.obeys_bind (obeys_number? _ _) fun _ => C.obeys_bind (obeys_option hv) fun _ => C.obeys_pure _

/-- What is found out about one declaration. -/
theorem obeys_found {d : Declaration} (hd : ∀ t ∈ d.types, T t) : C.obeys (do
    match d with
    | .value .var v => return (← resourceOf v, none)
    | .value .override v => return (none, some (← overrideOf v))
    | _ => return ((none : Option Resource), (none : Option OverrideInfo))) := by
  split
  · exact C.obeys_bind (obeys_resourceOf fun t ht => hd t (Option.mem_toList.2 ht)) fun _ =>
      C.obeys_pure _
  · exact C.obeys_bind (obeys_overrideOf fun t ht => hd t (Option.mem_toList.2 ht)) fun _ =>
      C.obeys_pure _
  · exact C.obeys_pure _

theorem obeys_aliasOf {a : AliasDecl} (ha : T a.type) :
    C.obeys (do return (a.name, ← LayoutM.typeInfo a.type)) :=
  C.obeys_bind (C.obeys_typeInfo a.type ha) fun _ => C.obeys_pure _

theorem obeys_argsOf {f : Function} (hf : ∀ a ∈ f.args, T a.type) :
    C.obeys (f.args.mapM fun a => do return (a.name, ← LayoutM.typeInfo a.type)) :=
  Passing.obeys_mapM fun a ha => C.obeys_bind (C.obeys_typeInfo a.type (hf a ha)) fun _ =>
    C.obeys_pure _

theorem obeys_workgroupSize? (a : Attribute) : C.obeys (workgroupSize? a) :=
  C.obeys_constants (f := fun constants => do
    let found ← workgroupSize?.dims constants (a.args.take 3)
    return found.map fun ds : List Nat => (ds.getD 0 1, ds.getD 1 1, ds.getD 2 1)) fun _ =>
    C.obeys_bind (C.obeys_lift _) fun _ => C.obeys_pure _

theorem obeys_workgroupOf (f : Function) : C.obeys (workgroupOf f) := by
  unfold workgroupOf
  split
  · exact obeys_workgroupSize? _
  · exact C.obeys_pure _

section

variable (hm : ∀ s ∈ p.structs, ∀ m ∈ s.members, T m.type)

include hm

theorem obeys_stageVariables (depth : Nat) : ∀ (name : String) (attributes : List Attribute)
    (t : TypeExpr), T t → C.obeys (stageVariables p depth name attributes t) := by
  induction depth with
  | zero => exact fun _ _ _ _ => C.obeys_pure _
  | succ depth ih =>
    intro name attributes t ht
    refine C.obeys_bind (C.obeys_typeInfo t ht) fun type => ?_
    split
    · exact C.obeys_pure _
    · exact C.obeys_bind (obeys_number? _ _) fun _ => C.obeys_pure _
    · split
      · exact C.obeys_pure _
      · rename_i s hs
        have inside := hm s (List.mem_of_find?_eq_some hs)
        refine C.obeys_bind (Passing.obeys_mapM fun m hmem => ih _ _ _ (inside m hmem)) fun _ => ?_
        exact C.obeys_pure _

theorem obeys_inputsOf {f : Function} (hf : ∀ a ∈ f.args, T a.type) : C.obeys (inputsOf p f) := by
  unfold inputsOf
  split
  · rw [map_eq_pure_bind]
    exact C.obeys_bind (Passing.obeys_mapM fun a ha => obeys_stageVariables hm _ _ _ _ (hf a ha))
      fun _ => C.obeys_pure _
  · exact C.obeys_pure _

theorem obeys_outputsOf {f : Function} (hf : ∀ t ∈ f.returnType, T t) : C.obeys (outputsOf p f) := by
  unfold outputsOf
  split
  · rename_i ht
    exact obeys_stageVariables hm _ _ _ _ (hf _ ht)
  · exact C.obeys_pure _

end

end Questioning

namespace Asking

variable {C : Asking}

theorem obeys_useAll (resources : List Resource) (args : List (String × TypeInfo))
    (returnType : Option TypeInfo) (structs used : List String) :
    C.obeys (useAll resources args returnType structs used) := by
  refine C.obeys_bind (Passing.obeys_forM fun _ _ => C.obeys_use _) fun _ => ?_
  refine C.obeys_bind ?_ fun _ => C.obeys_bind (Passing.obeys_forM fun name _ => ?_) fun _ =>
    Passing.obeys_forM fun name _ => ?_
  · cases returnType with
    | none => exact C.obeys_pure _
    | some t => exact C.obeys_use t
  · refine C.obeys_bind (C.obeys_structInfo name) fun t? => ?_
    cases t? with
    | none => exact C.obeys_pure _
    | some t => exact C.obeys_use t
  · split
    · exact C.obeys_use _
    · exact C.obeys_pure _

theorem obeys_functionOf {resources : List Resource} {graph : CallGraph}
    {scans : Table BodyScan} {running : List String} (f : Function) :
    C.obeys (functionOf p resources graph scans running f) := by
  have all : ∀ t : TypeExpr, (fun _ => True) t := fun _ => trivial
  rw [functionOf_eq]
  refine C.obeys_bind (Questioning.obeys_argsOf fun a _ => all a.type) fun args => ?_
  refine C.obeys_bind (Questioning.obeys_option fun t _ => all t) fun returnType => ?_
  refine C.obeys_bind (Questioning.obeys_inputsOf (fun _ _ m _ => all m.type) fun a _ => all a.type)
    fun inputs => ?_
  refine C.obeys_bind (Questioning.obeys_outputsOf (fun _ _ m _ => all m.type) fun t _ => all t)
    fun outputs => ?_
  refine C.obeys_bind (Questioning.obeys_workgroupOf f) fun size => ?_
  split
  · exact C.obeys_bind (obeys_useAll _ _ _ _ _) fun _ => C.obeys_pure _
  · exact C.obeys_pure _

end Asking

/-- A reflection forgets nothing that has been laid out. -/
def extending : Asking where
  obeys x := ∀ l a l', x.run l = .ok (a, l') → l.Extends l'
  obeys_pure a l b l' h := by
    cases h
    exact .refl l
  obeys_bind hx hf l b l₂ h := by
    obtain ⟨a, l₁, h₁, h₂⟩ := bind_ok h
    exact (hx l a l₁ h₁).trans (hf a l₁ b l₂ h₂)
  obeys_lift r l a l' h := (growing.obeys_lift r l a l' h).toExtends
  obeys_constants h l := h l.constants l
  obeys_typeInfo t _ l a l' h := (growing_typeInfo t l a l' h).toExtends
  obeys_structInfo name l a l' h := (growing_structInfo name l a l' h).toExtends
  obeys_use t l a l' h := by
    cases h
    exact (Layouts.Extends.refl l).live _

end Reflection

/-! ## Declared names -/

/-- All names that are declared come from the declarations of the program. -/
structure Layouts.Declares (p : Program) (l : Layouts) : Prop where
  structs : ∀ name decl, l.structs.find? name = some decl → decl ∈ p.structs ∧ decl.name = name
  aliases : ∀ name target, l.aliases.find? name = some target →
    ∃ a ∈ p.aliases, a.name = name ∧ a.type = target
  inProgress : l.inProgress = []

/-- Every structure and the target of every alias has been laid out. -/
structure Layouts.Settled (l : Layouts) : Prop where
  structs : ∀ name decl, l.structs.find? name = some decl → (l.byStruct.find? name).isSome
  aliases : ∀ name target, l.aliases.find? name = some target → (l.byNode.lookup target.id).isSome

theorem Table.find?_insert_eq {α : Type} {t : Table α} {name other : String} {value found : α}
    (h : (t.insert name value).find? other = some found) :
    (other = name ∧ found = value) ∨ t.find? other = some found := by
  by_cases he : other = name
  · subst he
    rw [find?_insert_self] at h
    exact Or.inl ⟨rfl, (Option.some.inj h).symm⟩
  · rw [find?_insert_of_ne _ _ he] at h
    exact Or.inr h

namespace Layouts

variable {p : Program}

theorem note_eq (l : Layouts) (v : VarDecl) : ∃ constants, ofProgram.note l v = { l with constants } := by
  unfold ofProgram.note
  split <;> exact ⟨_, rfl⟩

/-- The names of one more declaration. -/
def declared (l : Layouts) : Declaration → Layouts
  | .struct s => { l with structs := l.structs.insert s.name s }
  | .alias_ a => { l with aliases := l.aliases.insert a.name a.type }
  | .value .const v => ofProgram.note l v
  | .value .override v => ofProgram.note l v
  | _ => l

theorem ofProgram_eq (p : Program) : ofProgram p =
    p.declarations.foldl declared { structs := [], aliases := [], constants := [] } := by
  unfold ofProgram
  congr 1

theorem declares_ofProgram (p : Program) : (ofProgram p).Declares p := by
  refine List.foldlRecOn p.declarations _ ⟨nofun, nofun, rfl⟩ fun l h d hd => ?_
  split
  · rename_i s
    refine ⟨fun name decl hfound => ?_, h.aliases, h.inProgress⟩
    obtain ⟨rfl, rfl⟩ | hfound := Table.find?_insert_eq hfound
    · exact ⟨List.mem_filterMap.2 ⟨_, hd, rfl⟩, rfl⟩
    · exact h.structs name decl hfound
  · rename_i a
    refine ⟨h.structs, fun name target hfound => ?_, h.inProgress⟩
    obtain ⟨rfl, rfl⟩ | hfound := Table.find?_insert_eq hfound
    · exact ⟨a, List.mem_filterMap.2 ⟨_, hd, rfl⟩, rfl, rfl⟩
    · exact h.aliases name target hfound
  · rename_i v
    obtain ⟨constants, e⟩ := note_eq l v
    rw [e]
    exact ⟨h.structs, h.aliases, h.inProgress⟩
  · rename_i v
    obtain ⟨constants, e⟩ := note_eq l v
    rw [e]
    exact ⟨h.structs, h.aliases, h.inProgress⟩
  · exact h

end Layouts

namespace LayoutM

variable {α β : Type}

/-- What each item leaves remembered is remembered when all are done. -/
theorem remembers_mapM {Q : α → Layouts → Prop} {P : Layouts → Prop} {f : α → LayoutM β}
    (hext : ∀ a, Reflection.extending.obeys (f a)) (hQ : ∀ a l l', l.Extends l' → Q a l → Q a l')
    (hP : ∀ l l', Layouts.Extends l l' → P l → P l')
    (h : ∀ a l b l', P l → (f a).run l = .ok (b, l') → Q a l') :
    ∀ (items : List α) l bs l', P l → (items.mapM f).run l = .ok (bs, l') → ∀ a ∈ items, Q a l' := by
  intro items
  induction items with
  | nil => exact fun _ _ _ _ _ => nofun
  | cons a items ih =>
    intro l bs l' hp hrun c hc
    rw [List.mapM_cons] at hrun
    obtain ⟨b, l₁, hb, hrun⟩ := bind_ok hrun
    obtain ⟨rest, l₂, hrest, hrun⟩ := bind_ok hrun
    cases hrun
    obtain rfl | hc := List.mem_cons.1 hc
    · have later : Reflection.extending.obeys (items.mapM f) := Passing.obeys_mapM fun a _ => hext a
      exact hQ c _ _ (later _ _ _ hrest) (h c l b l₁ hp hb)
    · exact ih l₁ rest _ (hP _ _ (hext a l b l₁ hb) hp) hrest c hc

theorem filterMapM_eq {f : α → LayoutM (Option β)} (items : List α) :
    items.filterMapM f = (fun found => found.filterMap id) <$> items.mapM f := by
  induction items with
  | nil => simp
  | cons a items ih =>
    rw [List.filterMapM_cons, List.mapM_cons, ih]
    simp only [map_bind, bind_pure_comp, Functor.map_map]
    refine bind_congr fun b? => ?_
    cases b? <;> rfl

end LayoutM

namespace Reflection

open LayoutM

variable {p : Program}

/-- A structure is laid out and taken out of use. -/
def reset (s : StructDecl) : LayoutM (Option TypeInfo) := do
  let info ← LayoutM.structInfo s.name
  modify fun l => { l with live := l.live.filter fun key => key ≠ .declared s.name }
  return info

theorem extending_reset (s : StructDecl) : extending.obeys (reset s) := by
  refine extending.obeys_bind (extending.obeys_structInfo s.name) fun _ => ?_
  refine extending.obeys_bind (fun l _ l' h => ?_) fun _ => extending.obeys_pure _
  cases h
  exact (Layouts.Extends.refl l).live _

/-- Reflecting a module lays out types and forgets none. -/
theorem extending_ofProgram (p : Program) : extending.obeys (Reflection.ofProgram p) := by
  intro l r l' h
  unfold Reflection.ofProgram at h
  rw [filterMapM_eq, map_eq_pure_bind, bind_assoc] at h
  obtain ⟨structs, l₁, h₁, h⟩ := bind_ok h
  rw [pure_bind] at h
  obtain ⟨aliases, l₂, h₂, h⟩ := bind_ok h
  obtain ⟨found, l₃, h₃, h⟩ := bind_ok h
  obtain ⟨_, _, hget, h⟩ := bind_ok h
  cases hget
  obtain ⟨functions, l₄, h₄, h⟩ := bind_ok h
  obtain ⟨_, _, hget, h⟩ := bind_ok h
  cases hget
  cases h
  have first := Passing.obeys_mapM (C := extending.toPassing) (fun s _ => extending_reset s) _ _ _ h₁
  have second := Passing.obeys_mapM (C := extending.toPassing) (fun a _ => Questioning.obeys_aliasOf trivial)
    _ _ _ h₂
  have third := Passing.obeys_mapM (C := extending.toPassing) (fun d _ =>
    Questioning.obeys_found fun _ _ => trivial) _ _ _ h₃
  have fourth := Passing.obeys_mapM (C := extending.toPassing) (fun f _ => Asking.obeys_functionOf f) _ _ _ h₄
  exact ((first.trans second).trans third).trans fourth

/-- When a module has been reflected, all its names are settled. -/
theorem settled_ofProgram {r : Reflection} {l : Layouts}
    (h : (Reflection.ofProgram p).run (Layouts.ofProgram p) = .ok (r, l)) : l.Settled := by
  have declared := Layouts.declares_ofProgram p
  unfold Reflection.ofProgram at h
  rw [filterMapM_eq, map_eq_pure_bind, bind_assoc] at h
  obtain ⟨structs, l₁, h₁, h⟩ := bind_ok h
  rw [pure_bind] at h
  obtain ⟨aliases, l₂, h₂, h⟩ := bind_ok h
  obtain ⟨found, l₃, h₃, h⟩ := bind_ok h
  obtain ⟨_, _, hget, h⟩ := bind_ok h
  cases hget
  obtain ⟨functions, l₄, h₄, h⟩ := bind_ok h
  obtain ⟨_, _, hget, h⟩ := bind_ok h
  cases hget
  cases h
  have first := Passing.obeys_mapM (C := extending.toPassing) (fun s _ => extending_reset s) _ _ _ h₁
  have second := Passing.obeys_mapM (C := extending.toPassing) (fun a _ => Questioning.obeys_aliasOf trivial)
    _ _ _ h₂
  have third := Passing.obeys_mapM (C := extending.toPassing) (fun d _ =>
    Questioning.obeys_found fun _ _ => trivial) _ _ _ h₃
  have fourth := Passing.obeys_mapM (C := extending.toPassing) (fun f _ => Asking.obeys_functionOf f) _ _ _ h₄
  have later := (second.trans third).trans fourth
  have all := first.trans later
  refine ⟨fun name decl hdecl => ?_, fun name target htarget => ?_⟩
  · obtain ⟨hmem, rfl⟩ := declared.structs name decl (all.structs ▸ hdecl)
    suffices laid : (l₁.byStruct.find? decl.name).isSome by
      obtain ⟨info, hinfo⟩ := Option.isSome_iff_exists.1 laid
      rw [later.byStruct _ _ hinfo]
      rfl
    refine remembers_mapM (P := fun l => l.inProgress = [])
      (Q := fun s l => ∀ d, l.structs.find? s.name = some d → (l.byStruct.find? s.name).isSome)
      extending_reset (fun s l l' he hq d hd => ?_)
      (fun l l' he hl => he.inProgress.trans hl) (fun s l info l' hl hs d hd => ?_) p.structs _ _ _
      declared.inProgress h₁ decl hmem decl (later.structs ▸ hdecl)
    · rw [he.structs] at hd
      obtain ⟨info, hinfo⟩ := Option.isSome_iff_exists.1 (hq d hd)
      rw [he.byStruct _ _ hinfo]
      rfl
    obtain ⟨_, l₅, hinfo, hs⟩ := bind_ok hs
    cases hs
    have same := (growing_structInfo s.name _ _ _ hinfo).structs
    obtain ⟨depth, _, hdepth, hinfo⟩ := bind_ok hinfo
    cases hdepth
    change l₅.structs.find? s.name = some d at hd
    rw [same] at hd
    change (l₅.byStruct.find? s.name).isSome = true
    exact structInfoWith_remembers hl hd hinfo
  · obtain ⟨a, hmem, -, rfl⟩ := declared.aliases name target (all.aliases ▸ htarget)
    suffices laid : ∃ info, l₂.byNode.lookup a.type.id = some info by
      obtain ⟨info, hinfo⟩ := laid
      rw [(third.trans fourth).byNode _ _ hinfo]
      rfl
    refine remembers_mapM (P := fun _ => True)
      (Q := fun (a : AliasDecl) (l : Layouts) => ∃ info, l.byNode.lookup a.type.id = some info)
      (fun a => Questioning.obeys_aliasOf trivial) (fun a l l' he ⟨info, hinfo⟩ => ⟨info, he.byNode _ _ hinfo⟩)
      (fun _ _ _ _ => trivial) (fun a l info l' _ ha => ?_) p.aliases _ _ _ trivial h₂ a hmem
    obtain ⟨_, l₅, hinfo, ha⟩ := bind_ok ha
    cases ha
    obtain ⟨depth, _, hdepth, hinfo⟩ := bind_ok hinfo
    cases hdepth
    exact ⟨_, typeInfoOf_remembers hinfo⟩

end Reflection

end Wgsl
