import Wgsl.Proofs.Layout.Rules

/-! # Laying out comes to an end

The layout of a name follows declarations at most so far, and beyond that answers with a handle. It
never comes to that: a structure is not entered again while it is being laid out, and aliases that do
not refer to themselves lead to a structure or to no declaration at last.

* `Unbounded.named`: the layout of a name without such an answer; followed too deep, it stops.
* `Layouts.AliasesAcyclic`: no alias refers to itself. Structures may.
* `Layouts.need`: how deep declarations are followed from a name, while some structures are laid out.
* `Unbounded.run_typeInfo`, `Unbounded.run_structInfo`: the answers are the same.
-/

namespace Wgsl
set_option autoImplicit false

/-! ## Without a bound -/

namespace Unbounded

open LayoutM

/-- The layout of a name by its declaration: structures first, then aliases, then scalars; any other
name is a handle. -/
def namedOver (named : String → LayoutM TypeInfo) (name : String) : LayoutM TypeInfo := do
  match ← structInfoWith named name with
  | some info => return info
  | none =>
    match (← get).aliases.find? name with
    | some target => typeInfoOf named target
    | none =>
      match (← get).byName.find? name with
      | some info => return info
      | none =>
        let info := ((ScalarKind.ofName? name).map TypeInfo.scalar).getD (.handle name)
        modify fun l => { l with byName := l.byName.insert name info }
        return info

/-- The layout of a name. Declarations are followed as they come; at more than the given number of
them within each other it stops. -/
def named (stop : Fault) : Nat → String → LayoutM TypeInfo
  | 0, _ => throw stop
  | depth + 1, name => namedOver (named stop depth) name

/-- The layout of a type node. -/
def layoutOf (stop : Fault) (depth : Nat) (t : TypeExpr) : LayoutM TypeInfo :=
  typeInfoOf (named stop depth) t

/-- The layout of a declared structure. -/
def structLayout (stop : Fault) (depth : Nat) (name : String) : LayoutM (Option TypeInfo) :=
  structInfoWith (named stop depth) name

end Unbounded

/-! ## References among aliases -/

namespace Layouts

/-- An alias, whose name no structure has taken, asks for the layout of a name. -/
def AliasRefers (l : Layouts) (name other : String) : Prop :=
  l.structs.find? name = none ∧ ∃ target, l.aliases.find? name = some target ∧ other ∈ target.lookups

/-- No alias refers to itself, be it through other aliases. -/
def AliasesAcyclic (l : Layouts) : Prop := ∀ name, ¬Relation.TransGen l.AliasRefers name name

/-- Declarations that do not refer to themselves have such aliases. -/
theorem Acyclic.aliasesAcyclic {l : Layouts} (h : l.Acyclic) : l.AliasesAcyclic := by
  have refers : ∀ name other, l.AliasRefers name other → l.Refers name other := by
    rintro name other ⟨undeclared, target, found, asked⟩
    exact .alias_ target undeclared found asked
  exact fun name hself => h name (hself.lift id refers)

/-- References to aliases that can be followed come to an end: names have ranks, which structures do
not raise. -/
structure AliasRanked (l : Layouts) (rank : String → Nat) : Prop where
  refers : ∀ name other, l.AliasRefers name other → rank other < rank name
  bound : ∀ name, rank name ≤ l.aliases.length

theorem AliasesAcyclic.ranked {l : Layouts} (h : l.AliasesAcyclic) : ∃ rank, l.AliasRanked rank := by
  obtain ⟨rank, hrank, hbound, -⟩ := exists_rank (l.aliases.map Prod.fst).toFinset
    (fun name other hrefers => by
      obtain ⟨-, target, found, -⟩ := hrefers
      exact List.mem_toFinset.2 (List.mem_map_of_mem (Table.mem_of_find? found))) h
  refine ⟨rank, hrank, fun name => (hbound name).trans ?_⟩
  simpa using List.toFinset_card_le (l.aliases.map Prod.fst)

/-- The declared structures that are not being laid out. -/
def untouched (l : Layouts) (active : List String) : List (String × StructDecl) :=
  l.structs.filter fun entry => !active.contains entry.1

/-- How deep declarations are followed from a name while the given structures are being laid out:
before each structure that is entered, all aliases may be gone through. -/
def need (l : Layouts) (rank : String → Nat) (active : List String) (name : String) : Nat :=
  (l.untouched active).length * (l.aliases.length + 1) + rank name

/-- Entering a structure leaves fewer to enter. -/
theorem untouched_enter {l : Layouts} {active : List String} {name : String} {decl : StructDecl}
    (hdecl : l.structs.find? name = some decl) (hnew : active.contains name = false) :
    (l.untouched (name :: active)).length < (l.untouched active).length := by
  have listed : (name, decl) ∈ l.untouched active :=
    List.mem_filter.2 ⟨Table.mem_of_find? hdecl, by simpa using hnew⟩
  have fewer : l.untouched (name :: active) =
      (l.untouched active).filter fun entry => entry.1 != name := by
    unfold untouched
    rw [List.filter_filter]
    refine List.filter_congr fun entry _ => ?_
    rw [List.contains_cons, Bool.not_or]
    rfl
  rw [fewer]
  exact List.length_filter_lt_length_iff_exists.2 ⟨(name, decl), listed, by simp⟩

variable {l : Layouts} {rank : String → Nat}

theorem need_enter (hr : l.AliasRanked rank) {active : List String} {name : String} (other : String)
    {decl : StructDecl} (hdecl : l.structs.find? name = some decl)
    (hnew : active.contains name = false) :
    l.need rank (name :: active) other < l.need rank active name := by
  have fewer := untouched_enter hdecl hnew
  have bound := hr.bound other
  calc l.need rank (name :: active) other
      < (l.untouched (name :: active)).length * (l.aliases.length + 1) + (l.aliases.length + 1) := by
        unfold need
        omega
    _ = ((l.untouched (name :: active)).length + 1) * (l.aliases.length + 1) := by ring
    _ ≤ (l.untouched active).length * (l.aliases.length + 1) := Nat.mul_le_mul_right _ fewer
    _ ≤ l.need rank active name := Nat.le_add_right _ _

theorem need_alias (hr : l.AliasRanked rank) (active : List String) {name other : String}
    (h : l.AliasRefers name other) : l.need rank active other < l.need rank active name :=
  Nat.add_lt_add_left (hr.refers name other h) _

/-- No name is followed deeper than declarations may nest. -/
theorem need_lt_depthOf (hr : l.AliasRanked rank) (active : List String) (name : String) :
    l.need rank active name < LayoutM.depthOf l := by
  have few : (l.untouched active).length ≤ l.structs.length := List.length_filter_le _ _
  have bound := hr.bound name
  calc l.need rank active name
      < (l.untouched active).length * (l.aliases.length + 1) + (l.aliases.length + 1) := by
        unfold need
        omega
    _ ≤ l.structs.length * (l.aliases.length + 1) + (l.aliases.length + 1) :=
        Nat.add_le_add_right (Nat.mul_le_mul_right _ few) _
    _ = LayoutM.depthOf l := by
        unfold LayoutM.depthOf
        ring

/-- The layouts have the declarations of others, and the given structures are being laid out. -/
structure Stand (decls : Layouts) (active : List String) (l : Layouts) : Prop where
  structs : l.structs = decls.structs
  aliases : l.aliases = decls.aliases
  inProgress : l.inProgress = active

theorem Stand.extends {decls l l' : Layouts} {active : List String} (h : decls.Stand active l)
    (hl : l.Extends l') : decls.Stand active l' :=
  ⟨hl.structs.trans h.structs, hl.aliases.trans h.aliases, hl.inProgress.trans h.inProgress⟩

end Layouts

/-! ## Two ways of laying out -/

namespace LayoutM

variable {α β : Type} {decls : Layouts} {active : List String}

/-- The second computation does what the first one does. -/
def Alike (decls : Layouts) (active : List String) (x x' : LayoutM α) : Prop :=
  ∀ l, decls.Stand active l → x'.run l = x.run l

theorem alike_refl (x : LayoutM α) : Alike decls active x x := fun _ _ => rfl

/-- What follows is the same, whatever has been laid out. -/
theorem Alike.then {x x' : LayoutM α} (hx : Alike decls active x x') (f : α → LayoutM β) :
    Alike decls active (x >>= f) (x' >>= f) := by
  intro l hl
  rw [StateT.run_bind, StateT.run_bind, hx l hl]

theorem Alike.bind {x x' : LayoutM α} {f f' : α → LayoutM β} (hx : Alike decls active x x')
    (hg : Growing x) (hf : ∀ l a l', decls.Stand active l → x.run l = .ok (a, l') →
      Alike decls active (f a) (f' a)) : Alike decls active (x >>= f) (x' >>= f') := by
  intro l hl
  cases hrun : x.run l with
  | error e => rw [run_bind_error hrun, run_bind_error ((hx l hl).trans hrun)]
  | ok r =>
    obtain ⟨a, l'⟩ := r
    rw [run_bind_ok hrun, run_bind_ok ((hx l hl).trans hrun)]
    exact hf l a l' hl hrun l' (hl.extends (hg l a l' hrun).toExtends)

theorem alike_get {f f' : Layouts → LayoutM α}
    (h : ∀ l, decls.Stand active l → (f' l).run l = (f l).run l) :
    Alike decls active (get >>= f) (get >>= f') := h

theorem alike_foldlM {f f' : β → α → LayoutM β} {items : List α}
    (h : ∀ b, ∀ a ∈ items, Alike decls active (f b a) (f' b a)) (hg : ∀ b a, Growing (f b a))
    (init : β) : Alike decls active (items.foldlM f init) (items.foldlM f' init) := by
  induction items generalizing init with
  | nil => exact alike_refl _
  | cons a items ih =>
    rw [List.foldlM_cons, List.foldlM_cons]
    refine (h init a List.mem_cons_self).bind (hg init a) fun _ b _ _ _ => ?_
    exact ih (fun b c hc => h b c (List.mem_cons_of_mem _ hc)) b

section

variable {named named' : String → LayoutM TypeInfo}

theorem alike_remembering (id : NodeId) {x x' : LayoutM TypeInfo} (hx : Alike decls active x x') :
    Alike decls active (remembering id x) (remembering id x') := by
  refine alike_get fun l hl => ?_
  split
  · rfl
  · exact hx.then _ l hl

/-- Without a parameter the component goes without saying. -/
theorem alike_templateInfo_none {text base : String} {attributes : List Attribute}
    {access space : Option String} (h : hasComponents base = true →
      Alike decls active (named ScalarKind.f32.name) (named' ScalarKind.f32.name)) :
    Alike decls active (templateInfo named text base attributes none access space)
      (templateInfo named' text base attributes none access space) := by
  unfold templateInfo
  dsimp only
  split
  · rename_i hv
    refine Alike.then (h ?_) _
    rw [hasComponents, hv]
    rfl
  · split
    · rename_i hm
      refine Alike.then (h ?_) _
      rw [hasComponents, hm, Option.isSome_some, Bool.or_true]
    · exact alike_refl _

/-- The layout of a type depends on the layouts of the names it asks for. -/
theorem alike_typeInfoOf : ∀ t : TypeExpr,
    (∀ name ∈ t.lookups, Alike decls active (named name) (named' name)) →
    Alike decls active (typeInfoOf named t) (typeInfoOf named' t)
  | .named id attributes name, h => by
    rw [typeInfoOf, typeInfoOf]
    exact alike_remembering id ((h name List.mem_cons_self).then _)
  | .array id attributes none count countExpr, h => by
    rw [typeInfoOf, typeInfoOf, paramInfoOf, paramInfoOf, pure_bind, pure_bind]
    exact alike_remembering id ((h _ List.mem_cons_self).then _)
  | .array id attributes (some element) count countExpr, h => by
    rw [typeInfoOf, typeInfoOf, paramInfoOf, paramInfoOf, bind_assoc, bind_assoc]
    exact alike_remembering id ((alike_typeInfoOf element h).then _)
  | .template id attributes base none access space, h => by
    rw [typeInfoOf, typeInfoOf, paramInfoOf, paramInfoOf, pure_bind, pure_bind]
    refine alike_remembering id (alike_templateInfo_none fun hb => h _ ?_)
    rw [TypeExpr.lookups, if_pos hb]
    exact List.mem_cons_self
  | .template id attributes base (some param) access space, h => by
    have inner : ∀ name ∈ param.lookups, Alike decls active (named name) (named' name) := by
      intro name hname
      refine h name ?_
      rw [TypeExpr.lookups]
      split <;> exact hname
    rw [typeInfoOf, typeInfoOf, paramInfoOf, paramInfoOf, bind_assoc, bind_assoc]
    exact alike_remembering id ((alike_typeInfoOf param inner).then _)

theorem alike_structInfoOf {decl : StructDecl} (hg : ∀ name, Growing (named name))
    (h : ∀ m ∈ decl.members, ∀ name ∈ m.type.lookups, Alike decls active (named name) (named' name)) :
    Alike decls active (structInfoOf named decl) (structInfoOf named' decl) := by
  have number : ∀ attributes name, Growing (attributeNumber? attributes name) := fun _ _ =>
    Passing.obeys_attributeNumber? (C := growing.toPassing) _ _
  refine Alike.then (alike_foldlM (fun placed m hm => ?_) (fun placed m => ?_) _) _
  · exact (alike_typeInfoOf m.type (h m hm)).then _
  · refine growing_bind (growing_typeInfoOf hg m.type) fun type => ?_
    exact growing_bind (number _ _) fun align => growing_bind (number _ _) fun size =>
      growing.obeys_pure _

/-- A structure is entered while others are being laid out, but not while it is itself. -/
theorem alike_structInfoWith (hg : ∀ name, Growing (named name)) {name : String}
    (h : ∀ decl, decls.structs.find? name = some decl → active.contains name = false →
      ∀ m ∈ decl.members, ∀ other ∈ m.type.lookups,
        Alike decls (name :: active) (named other) (named' other)) :
    Alike decls active (structInfoWith named name) (structInfoWith named' name) := by
  refine alike_get fun l hl => ?_
  cases l.byStruct.find? name with
  | some info => rfl
  | none =>
    cases hdecl : l.structs.find? name with
    | none => rfl
    | some decl =>
      rw [hl.structs] at hdecl
      cases hnew : l.inProgress.contains name with
      | true => rfl
      | false =>
        rw [hl.inProgress] at hnew
        have entered : decls.Stand (name :: active) { l with inProgress := name :: l.inProgress } :=
          ⟨hl.structs, hl.aliases, congrArg (name :: ·) hl.inProgress⟩
        have laid := alike_structInfoOf hg (h decl hdecl hnew)
        exact Alike.then laid (fun info => do
          modify fun l => { l with
            inProgress := l.inProgress.erase name
            byStruct := l.byStruct.insert name info }
          return some info) _ entered

/-- Only for a name without a structure there is no layout of a structure. -/
theorem find?_of_structInfoWith_none {name : String} {l l' : Layouts}
    (h : (structInfoWith named name).run l = .ok (none, l')) : l.structs.find? name = none := by
  obtain ⟨_, _, hget, h⟩ := bind_ok h
  cases hget
  split at h
  · cases h
  · split at h
    · assumption
    · split at h
      · cases h
      · obtain ⟨_, _, -, h⟩ := bind_ok h
        obtain ⟨_, _, -, h⟩ := bind_ok h
        obtain ⟨_, _, -, h⟩ := bind_ok h
        cases h

/-- A name is followed on to the names that its declaration asks for. -/
theorem alike_namedOver (hg : ∀ name, Growing (named name)) {name : String}
    (hs : ∀ decl, decls.structs.find? name = some decl → active.contains name = false →
      ∀ m ∈ decl.members, ∀ other ∈ m.type.lookups,
        Alike decls (name :: active) (named other) (named' other))
    (ha : ∀ other, decls.AliasRefers name other → Alike decls active (named other) (named' other)) :
    Alike decls active (Unbounded.namedOver named name) (Unbounded.namedOver named' name) := by
  refine (alike_structInfoWith hg hs).bind (growing_structInfoWith hg name) fun l found l' hl hrun => ?_
  cases found with
  | some info => exact alike_refl _
  | none =>
    have undeclared := find?_of_structInfoWith_none hrun
    rw [hl.structs] at undeclared
    refine alike_get fun l₁ hl₁ => ?_
    cases htarget : l₁.aliases.find? name with
    | none => rfl
    | some target =>
      rw [hl₁.aliases] at htarget
      exact alike_typeInfoOf target (fun other hother => ha other ⟨undeclared, target, htarget, hother⟩)
        l₁ hl₁

end

/-- Deep enough, the layout of a name is the same without a bound. By induction on the depth: each
declaration that is followed needs less than the one before. -/
theorem alike_named {rank : String → Nat} (hr : decls.AliasRanked rank) (stop : Fault) (depth : Nat) :
    ∀ (depth' : Nat) (active : List String) (name : String), decls.need rank active name < depth →
      decls.need rank active name < depth' →
      Alike decls active (namedWithin depth name) (Unbounded.named stop depth' name) := by
  induction depth with
  | zero => exact fun _ _ _ h => absurd h (Nat.not_lt_zero _)
  | succ depth ih =>
    intro depth' active name h h'
    obtain ⟨depth', rfl⟩ := Nat.exists_eq_succ_of_ne_zero (Nat.ne_zero_of_lt h')
    refine alike_namedOver (growing_namedWithin depth) (fun decl hdecl hnew m _ other _ => ?_)
      fun other hother => ?_
    · have less := Layouts.need_enter hr other hdecl hnew
      exact ih depth' _ other (by omega) (by omega)
    · have less := Layouts.need_alias hr active hother
      exact ih depth' _ other (by omega) (by omega)

end LayoutM

/-! ## Answers -/

theorem Layouts.Stand.run_nesting {decls l : Layouts} {active : List String}
    (h : decls.Stand active l) :
    LayoutM.nesting.run l = .ok (LayoutM.depthOf decls + 1, l) := by
  rw [LayoutM.depthOf, ← h.structs, ← h.aliases]
  rfl

namespace Unbounded

variable {decls l : Layouts} (h : decls.AliasesAcyclic) {depth : Nat}
  (hdepth : LayoutM.depthOf decls < depth) (stop : Fault)

include h hdepth

theorem alike_names (active : List String) (name : String) : LayoutM.Alike decls active
    (LayoutM.namedWithin (LayoutM.depthOf decls + 1) name) (named stop depth name) := by
  obtain ⟨rank, hr⟩ := h.ranked
  have need := Layouts.need_lt_depthOf hr active name
  exact LayoutM.alike_named hr stop _ _ _ _ (by omega) (by omega)

variable {active : List String} (hl : decls.Stand active l)

include hl

/-- The layout of a type needs no bound, as far as aliases do not refer to themselves. -/
theorem run_layoutOf (t : TypeExpr) : (layoutOf stop depth t).run l = (LayoutM.typeInfo t).run l := by
  refine Eq.trans ?_ (LayoutM.run_bind_ok hl.run_nesting).symm
  exact LayoutM.alike_typeInfoOf t (fun name _ => alike_names h hdepth stop active name) l hl

/-- Nor does the layout of a structure. -/
theorem run_structLayout (name : String) :
    (structLayout stop depth name).run l = (LayoutM.structInfo name).run l := by
  refine Eq.trans ?_ (LayoutM.run_bind_ok hl.run_nesting).symm
  exact LayoutM.alike_structInfoWith (LayoutM.growing_namedWithin _)
    (fun _ _ _ _ _ other _ => alike_names h hdepth stop _ other) l hl

end Unbounded

end Wgsl
