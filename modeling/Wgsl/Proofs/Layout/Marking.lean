import Wgsl.Layout.Liveness
import Wgsl.Proofs.Layout.Transparent

/-! # What marking a type marks

The walk that marks a type does not enter a structure that is in use already. What it leaves out is in
use all the same, as long as a structure in use has all the structures that it is made of in use, but
for those that the walk is still in.

* `Layouts.Spans`: the structures that some names stand for, be it through others.
* `TypeInfo.Faithful`: each structure inside a type is made of those that its declaration refers to.
* `TypeInfo.Faithful.mem_markInUse`: marking such a type brings the structures inside it into use.
* `Rules.depicts_typeInfo`: what a type is laid out as is made of the structures it stands for.
-/

namespace Wgsl
set_option autoImplicit false

/-! ## The structures that names stand for -/

namespace Layouts

variable {l : Layouts} {name s : String} {names : Set String}

/-- The structure is declared. -/
def HasStruct (l : Layouts) (s : String) : Prop := (l.structs.find? s).isSome

/-- The structure is referred to from one of the names, or is one of them. -/
def Spans (l : Layouts) (names : Set String) (s : String) : Prop :=
  l.HasStruct s ∧ ∃ name ∈ names, Relation.ReflTransGen l.Refers name s

/-- The declaration of the structure refers to the other one, be it through others. -/
def Holds (l : Layouts) (outer s : String) : Prop :=
  l.HasStruct s ∧ Relation.TransGen l.Refers outer s

theorem not_spans_empty : ¬l.Spans ∅ s := fun ⟨_, _, h, _⟩ => h

theorem spans_union {more : Set String} : l.Spans (names ∪ more) s ↔ l.Spans names s ∨ l.Spans more s := by
  unfold Spans
  simp only [Set.mem_union, or_and_right, exists_or, and_or_left]

/-- A name stands for its structure, if it has one, and for what it refers to. -/
theorem spans_singleton : l.Spans {name} s ↔ (l.HasStruct name ∧ s = name) ∨ l.Holds name s := by
  unfold Spans Holds
  simp only [Set.mem_singleton_iff, exists_eq_left]
  constructor
  · rintro ⟨hs, path⟩
    obtain rfl | path := Relation.reflTransGen_iff_eq_or_transGen.1 path
    · exact .inl ⟨hs, rfl⟩
    · exact .inr ⟨hs, path⟩
  · rintro (⟨hs, rfl⟩ | ⟨hs, path⟩)
    · exact ⟨hs, .refl⟩
    · exact ⟨hs, path.to_reflTransGen⟩

/-- What a name refers to is what the names stand for that its declaration asks for. -/
theorem holds_iff {asked : Set String} (h : ∀ other, l.Refers name other ↔ other ∈ asked) :
    l.Holds name s ↔ l.Spans asked s := by
  unfold Holds Spans
  refine and_congr_right fun _ => ?_
  rw [Relation.TransGen.head'_iff]
  exact exists_congr fun other => and_congr_left fun _ => h other

end Layouts

/-! ## The structures inside a type -/

mutual

/-- The structures inside a type, itself included. -/
def TypeInfo.keys : TypeInfo → List StructKey
  | .mk _ _ _ _ shape => TypeShape.keys shape

def TypeShape.keys : TypeShape → List StructKey
  | .struct key members _ _ => key :: MemberInfo.keys members
  | .array element _ _ => TypeInfo.keys element
  | .template _ param _ _ => TypeInfo.paramKeys param
  | .scalar _ => []
  | .handle => []

def MemberInfo.keys : List MemberInfo → List StructKey
  | [] => []
  | .mk _ type _ _ _ :: rest => TypeInfo.keys type ++ MemberInfo.keys rest

def TypeInfo.paramKeys : Option TypeInfo → List StructKey
  | none => []
  | some t => TypeInfo.keys t

end

/-- The key of a declared structure among those that have a property. -/
def StructKey.Within (has : String → Prop) (key : StructKey) : Prop :=
  ∃ s, key = .declared s ∧ has s

mutual

/-- Each structure inside the type is a declared one and is made of those that it refers to. -/
def TypeInfo.Faithful (l : Layouts) : TypeInfo → Prop
  | .mk _ _ _ _ shape => TypeShape.Faithful l shape

def TypeShape.Faithful (l : Layouts) : TypeShape → Prop
  | .struct key members _ _ =>
    (∃ name, key = .declared name ∧
      ∀ k, k ∈ MemberInfo.keys members ↔ StructKey.Within (l.Holds name) k) ∧
      MemberInfo.Faithful l members
  | .array element _ _ => TypeInfo.Faithful l element
  | .template _ param _ _ => TypeInfo.ParamFaithful l param
  | .scalar _ => True
  | .handle => True

def MemberInfo.Faithful (l : Layouts) : List MemberInfo → Prop
  | [] => True
  | .mk _ type _ _ _ :: rest => TypeInfo.Faithful l type ∧ MemberInfo.Faithful l rest

def TypeInfo.ParamFaithful (l : Layouts) : Option TypeInfo → Prop
  | none => True
  | some t => TypeInfo.Faithful l t

end

/-- The keys contain what the structures among them are made of. -/
def StructKey.Closed (l : Layouts) (keys : List StructKey) : Prop :=
  ∀ name, .declared name ∈ keys → ∀ s, l.Holds name s → .declared s ∈ keys

theorem StructKey.Closed.union {l : Layouts} {keys more all : List StructKey} (h : Closed l keys)
    (hmore : Closed l more) (hall : ∀ key, key ∈ all ↔ key ∈ keys ∨ key ∈ more) : Closed l all := by
  intro name hname s hs
  rw [hall] at hname ⊢
  exact hname.imp (fun hname => h name hname s hs) fun hname => hmore name hname s hs

mutual

theorem TypeInfo.Faithful.closed {l : Layouts} : ∀ {t : TypeInfo}, t.Faithful l →
    StructKey.Closed l t.keys
  | .mk _ _ _ _ _, h => TypeShape.Faithful.closed h

theorem TypeShape.Faithful.closed {l : Layouts} : ∀ {shape : TypeShape}, shape.Faithful l →
    StructKey.Closed l shape.keys
  | .struct _ _ _ _, h => by
    obtain ⟨⟨own, rfl, members⟩, inner⟩ := h
    intro name hname s hs
    refine List.mem_cons_of_mem _ ?_
    obtain hname | hname := List.mem_cons.1 hname
    · cases hname
      exact (members _).2 ⟨s, rfl, hs⟩
    · exact MemberInfo.Faithful.closed inner name hname s hs
  | .array _ _ _, h => TypeInfo.Faithful.closed h
  | .template _ _ _ _, h => TypeInfo.ParamFaithful.closed h
  | .scalar _, _ => nofun
  | .handle, _ => nofun

theorem MemberInfo.Faithful.closed {l : Layouts} : ∀ {members : List MemberInfo},
    MemberInfo.Faithful l members → StructKey.Closed l (MemberInfo.keys members)
  | [], _ => nofun
  | .mk _ _ _ _ _ :: _, h =>
    (TypeInfo.Faithful.closed h.1).union (MemberInfo.Faithful.closed h.2) fun _ => List.mem_append

theorem TypeInfo.ParamFaithful.closed {l : Layouts} : ∀ {param : Option TypeInfo},
    TypeInfo.ParamFaithful l param → StructKey.Closed l (TypeInfo.paramKeys param)
  | none, _ => nofun
  | some _, h => TypeInfo.Faithful.closed h

end

/-! ## The walk -/

/-- What the structures in use are made of is in use, but for those that the walk is still in. -/
def StructKey.ClosedBut (l : Layouts) (pending : List String) (live : List StructKey) : Prop :=
  ∀ name, .declared name ∈ live → name ∉ pending → ∀ s, l.Holds name s → .declared s ∈ live

/-- The walk has not entered a structure that is inside the type. -/
def StructKey.Ahead (pending : List String) (keys : List StructKey) : Prop :=
  ∀ name ∈ pending, .declared name ∉ keys

namespace StructKey

variable {l : Layouts} {pending : List String} {keys more live live' : List StructKey}

theorem ClosedBut.add (h : ClosedBut l pending live) (hk : Closed l keys)
    (hlive : ∀ key, key ∈ live' ↔ key ∈ live ∨ key ∈ keys) : ClosedBut l pending live' := by
  intro name hname hnot s hs
  rw [hlive] at hname ⊢
  exact hname.imp (fun hname => h name hname hnot s hs) fun hname => hk name hname s hs

theorem Ahead.left (h : Ahead pending (keys ++ more)) : Ahead pending keys :=
  fun name hname hk => h name hname (List.mem_append_left _ hk)

theorem Ahead.right (h : Ahead pending (keys ++ more)) : Ahead pending more :=
  fun name hname hk => h name hname (List.mem_append_right _ hk)

end StructKey

mutual

theorem TypeInfo.Faithful.mem_walk {l : Layouts} (hl : l.Acyclic) : ∀ {t : TypeInfo} (pending : List String) (live : List StructKey),
    t.Faithful l → StructKey.ClosedBut l pending live → StructKey.Ahead pending t.keys →
      ∀ key, key ∈ t.markInUse live ↔ key ∈ live ∨ key ∈ t.keys
  | .mk _ _ _ _ _, pending, live, h, hlive, hp => TypeShape.Faithful.mem_walk hl pending live h hlive hp

theorem TypeShape.Faithful.mem_walk {l : Layouts} (hl : l.Acyclic) : ∀ {shape : TypeShape} (pending : List String)
    (live : List StructKey), shape.Faithful l → StructKey.ClosedBut l pending live →
      StructKey.Ahead pending shape.keys →
      ∀ key, key ∈ shape.markInUse live ↔ key ∈ live ∨ key ∈ shape.keys
  | .struct _ members _ _, pending, live, h, hlive, hp => by
    obtain ⟨⟨own, rfl, inside⟩, inner⟩ := h
    intro key
    rw [TypeShape.markInUse, TypeShape.keys, List.mem_cons]
    have outside : own ∉ pending := fun hmem => hp own hmem List.mem_cons_self
    split
    · -- the walk stops, and what it would have met is in use
      rename_i hmarked
      rw [List.contains_iff_mem] at hmarked
      refine ⟨.inl, fun hkey => ?_⟩
      obtain hkey | rfl | hkey := hkey
      · exact hkey
      · exact hmarked
      · obtain ⟨s, rfl, hs⟩ := (inside key).1 hkey
        exact hlive own hmarked outside s hs
    · rw [MemberInfo.Faithful.mem_walk hl (own :: pending) _ inner ?_ ?_ key, List.mem_cons]
      · exact or_assoc.trans (or_left_comm)
      · intro name hname hnot s hs
        rw [List.mem_cons, not_or] at hnot
        obtain hname | hname := List.mem_cons.1 hname
        · cases hname
          exact absurd rfl hnot.1
        · exact List.mem_cons_of_mem _ (hlive name hname hnot.2 s hs)
      · refine List.forall_mem_cons.2 ⟨fun hself => ?_, fun name hname hk => ?_⟩
        · obtain ⟨s, hs, -, cycle⟩ := (inside _).1 hself
          cases hs
          exact hl own cycle
        · exact hp name hname (List.mem_cons_of_mem _ hk)
  | .array _ _ _, pending, live, h, hlive, hp => TypeInfo.Faithful.mem_walk hl pending live h hlive hp
  | .template _ _ _ _, pending, live, h, hlive, hp =>
    TypeInfo.ParamFaithful.mem_walk hl pending live h hlive hp
  | .scalar _, _, _, _, _, _ => fun _ => ⟨.inl, fun h => h.resolve_right List.not_mem_nil⟩
  | .handle, _, _, _, _, _ => fun _ => ⟨.inl, fun h => h.resolve_right List.not_mem_nil⟩

theorem MemberInfo.Faithful.mem_walk {l : Layouts} (hl : l.Acyclic) : ∀ {members : List MemberInfo} (pending : List String)
    (live : List StructKey), MemberInfo.Faithful l members → StructKey.ClosedBut l pending live →
      StructKey.Ahead pending (MemberInfo.keys members) →
      ∀ key, key ∈ MemberInfo.markInUse members live ↔ key ∈ live ∨ key ∈ MemberInfo.keys members
  | [], _, _, _, _, _ => fun _ => ⟨.inl, fun h => h.resolve_right List.not_mem_nil⟩
  | .mk _ type _ _ _ :: rest, pending, live, h, hlive, hp => by
    intro key
    have first := TypeInfo.Faithful.mem_walk hl pending live h.1 hlive hp.left
    have later := hlive.add (TypeInfo.Faithful.closed h.1) first
    rw [MemberInfo.markInUse, MemberInfo.Faithful.mem_walk hl pending _ h.2 later hp.right key, first key,
      MemberInfo.keys, List.mem_append, or_assoc]

theorem TypeInfo.ParamFaithful.mem_walk {l : Layouts} (hl : l.Acyclic) : ∀ {param : Option TypeInfo} (pending : List String)
    (live : List StructKey), TypeInfo.ParamFaithful l param → StructKey.ClosedBut l pending live →
      StructKey.Ahead pending (TypeInfo.paramKeys param) →
      ∀ key, key ∈ TypeInfo.markParamInUse param live ↔ key ∈ live ∨ key ∈ TypeInfo.paramKeys param
  | none, _, _, _, _, _ => fun _ => ⟨.inl, fun h => h.resolve_right List.not_mem_nil⟩
  | some _, pending, live, h, hlive, hp => TypeInfo.Faithful.mem_walk hl pending live h hlive hp

end

/-- Marking a type brings the structures inside it into use. -/
theorem TypeInfo.Faithful.mem_markInUse {l : Layouts} {t : TypeInfo} {live : List StructKey}
    (hl : l.Acyclic) (h : t.Faithful l) (hlive : StructKey.Closed l live) (key : StructKey) :
    key ∈ t.markInUse live ↔ key ∈ live ∨ key ∈ t.keys :=
  h.mem_walk hl [] live (fun name hname _ => hlive name hname) nofun key

/-! ## What types are laid out as -/

mutual

/-- No name in the type that stands for a structure has attributes of its own. -/
def TypeExpr.Unadorned (l : Layouts) : TypeExpr → Prop
  | .named _ attributes name => attributes = [] ∨ ∀ s, ¬l.Spans {name} s
  | .array _ _ element _ _ => TypeExpr.ParamUnadorned l element
  | .template _ _ _ param _ _ => TypeExpr.ParamUnadorned l param

def TypeExpr.ParamUnadorned (l : Layouts) : Option TypeExpr → Prop
  | none => True
  | some t => TypeExpr.Unadorned l t

end

/-- The type is made of the structures that the names stand for. -/
structure TypeInfo.Depicts (l : Layouts) (names : Set String) (t : TypeInfo) : Prop where
  faithful : t.Faithful l
  keys : ∀ key, key ∈ t.keys ↔ key.Within (l.Spans names)

/-- A structure is declared under its name, and the declared types are unadorned. -/
structure Layouts.Unadorned (l : Layouts) : Prop where
  named : ∀ name decl, l.structs.find? name = some decl → decl.name = name
  members : ∀ name decl, l.structs.find? name = some decl → ∀ m ∈ decl.members, m.type.Unadorned l
  targets : ∀ name target, l.aliases.find? name = some target → target.Unadorned l

namespace TypeInfo

variable {l : Layouts} {names : Set String} {t : TypeInfo}

theorem depicts_of_none (h : ∀ s, ¬l.Spans names s) (ht : t.Faithful l) (hk : t.keys = []) :
    t.Depicts l names :=
  ⟨ht, fun key => by simp [hk, StructKey.Within, h]⟩

/-- A type with the same structures inside. -/
theorem Depicts.congr {t' : TypeInfo} (h : t.Depicts l names) (ht : t.Faithful l → t'.Faithful l)
    (hk : t'.keys = t.keys) : t'.Depicts l names :=
  ⟨ht h.faithful, fun key => hk ▸ h.keys key⟩

end TypeInfo

/-- Members that are laid out one by one are made of what their types stand for. -/
theorem MemberInfo.depicts_of_forall₂ {l : Layouts} {members : List MemberInfo} {fields : List Field}
    (h : List.Forall₂ (fun x m => x.type.Depicts l {name | name ∈ m.type.lookups}) members fields) :
    MemberInfo.Faithful l members ∧ ∀ key, key ∈ MemberInfo.keys members ↔
      key.Within (l.Spans {name | ∃ m ∈ fields, name ∈ m.type.lookups}) := by
  induction h with
  | nil =>
    refine ⟨trivial, fun key => ⟨nofun, ?_⟩⟩
    rintro ⟨s, -, -, name, ⟨m, hm, -⟩, -⟩
    cases hm
  | @cons x m members fields first _ ih =>
    obtain ⟨name, type, offset, size, align⟩ := x
    refine ⟨⟨first.faithful, ih.1⟩, fun key => ?_⟩
    have both : {name | ∃ m' ∈ m :: fields, name ∈ m'.type.lookups} =
        {name | name ∈ m.type.lookups} ∪ {name | ∃ m' ∈ fields, name ∈ m'.type.lookups} := by
      ext name
      simp
    have own := first.keys key
    rw [MemberInfo.type] at own
    rw [MemberInfo.keys, List.mem_append, ih.2 key, own, both]
    simp only [StructKey.Within, Layouts.spans_union, and_or_left, exists_or]

namespace Rules

variable {A : Arithmetic} {l : Layouts} {named : String → Noted TypeInfo} {info : TypeInfo}
  {notes : List String} {names : Set String}

/-- The names that a type asks for are laid out as what they stand for. -/
def Shows (l : Layouts) (named : String → Noted TypeInfo) (names : Set String) : Prop :=
  ∀ name ∈ names, ∀ info notes, named name = .ok (info, notes) → info.Depicts l {name}

theorem depicts_sizedArray {text : String} {attributes : List Attribute} {element : TypeInfo}
    {count : Option Nat} (he : element.Depicts l names) (stride : Nat) (notes : List String) (h : (do
      let size ← match count with
        | some n => sizeOr text (A.fit (n * stride))
        | none => pure 0
      return TypeInfo.mk text attributes size element.align (.array element count stride) :
        Noted TypeInfo) = .ok (info, notes)) : info.Depicts l names := by
  cases count with
  | none =>
    dsimp only at h
    rw [pure_bind] at h
    cases h
    exact he.congr id rfl
  | some n =>
    obtain ⟨size, _, _, -, h, -⟩ := Noted.bind_ok h
    cases h
    exact he.congr id rfl

theorem depicts_arrayInfo {text : String} {attributes : List Attribute} {element : TypeInfo}
    {count : Option Nat} (he : element.Depicts l names)
    (h : arrayInfo A l text attributes element count = .ok (info, notes)) : info.Depicts l names := by
  obtain ⟨stride?, _, _, -, h, -⟩ := Noted.bind_ok h
  cases stride? with
  | some stride =>
    dsimp only at h
    rw [pure_bind] at h
    exact depicts_sizedArray he stride _ h
  | none =>
    obtain ⟨stride, _, _, -, h, -⟩ := Noted.bind_ok h
    exact depicts_sizedArray he stride _ h

/-- A generator is made of its components, or else of its parameter. -/
theorem depicts_templateInfo {text base : String} {attributes : List Attribute}
    {component : Noted TypeInfo} {param : Noted (Option TypeInfo)} {access space : Option String}
    (hc : hasComponents base = true → ∀ t notes, component = .ok (t, notes) → t.Depicts l names)
    (hp : hasComponents base = false → ∀ t? notes, param = .ok (t?, notes) →
      (TypeInfo.mk text [] 0 1 (.template base t? none none)).Depicts l names)
    (h : templateInfo A text base attributes component param access space = .ok (info, notes)) :
    info.Depicts l names := by
  unfold templateInfo at h
  split at h
  · rename_i hv
    obtain ⟨t, _, _, ht, h, -⟩ := Noted.bind_ok h
    cases h
    exact (hc (by rw [hasComponents, hv]; rfl) t _ ht).congr id rfl
  · rename_i hv
    split at h
    · rename_i hm
      obtain ⟨t, _, _, ht, h, -⟩ := Noted.bind_ok h
      cases h
      exact (hc (by rw [hasComponents, hm, Option.isSome_some, Bool.or_true]) t _ ht).congr id rfl
    · rename_i hm
      obtain ⟨t?, _, _, ht, h, -⟩ := Noted.bind_ok h
      cases h
      exact (hp (by rw [hasComponents, hv, hm]; rfl) t? _ ht).congr id rfl

/-- Where a name stands for no structure, its attributes make no copy of one. -/
theorem depicts_annotatedInfo {node : NodeId} {attributes : List Attribute} {shared : TypeInfo}
    (h : shared.Depicts l names) (hnone : ∀ s, ¬l.Spans names s) :
    (annotatedInfo node attributes shared).Depicts l names := by
  obtain ⟨name, own, size, align, shape⟩ := shared
  cases shape with
  | struct key members startLine endLine =>
    obtain ⟨s, -, hs⟩ := (h.keys key).1 List.mem_cons_self
    exact absurd hs (hnone s)
  | _ => exact h.congr id rfl

mutual

/-- By induction on the type: it is made of what the names in it stand for. -/
theorem depicts_typeInfoOf : ∀ (t : TypeExpr) (info : TypeInfo) (notes : List String),
    t.Unadorned l → Shows l named {name | name ∈ t.lookups} →
      typeInfoOf A l named t = .ok (info, notes) → info.Depicts l {name | name ∈ t.lookups}
  | .named node attributes name, info, notes, ht, hn, h => by
    have names : {other | other ∈ (TypeExpr.named node attributes name).lookups} = {name} := by
      ext other
      simp [TypeExpr.lookups]
    rw [names] at hn ⊢
    obtain ⟨shared, _, _, hshared, h, -⟩ := Noted.bind_ok h
    have depicts := hn name rfl shared _ hshared
    cases h
    obtain rfl | hnone := ht
    · exact depicts
    · split
      · exact depicts
      · exact depicts_annotatedInfo depicts hnone
  | .array node attributes element count countExpr, info, notes, ht, hn, h => by
    obtain ⟨t, _, _, helement, h, -⟩ := Noted.bind_ok h
    exact depicts_arrayInfo (depicts_componentOf element t _ ht hn helement) h
  | .template node attributes base param access space, info, notes, ht, hn, h => by
    rw [typeInfoOf] at h
    unfold TypeExpr.lookups at hn ⊢
    refine depicts_templateInfo (fun hb t notes hc => ?_) (fun hb t? notes hp => ?_) h
    · rw [if_pos hb] at hn ⊢
      exact depicts_componentOf param t notes ht hn hc
    · rw [if_neg (Bool.not_eq_true _ ▸ hb)] at hn ⊢
      cases param with
      | none =>
        cases hp
        refine TypeInfo.depicts_of_none ?_ trivial rfl
        rintro s ⟨-, name, hname, -⟩
        cases hname
      | some param =>
        obtain ⟨t, _, _, hparam, hp, -⟩ := Noted.bind_ok hp
        cases hp
        exact (depicts_typeInfoOf param t _ ht hn hparam).congr id rfl

theorem depicts_componentOf : ∀ (t? : Option TypeExpr) (info : TypeInfo) (notes : List String),
    TypeExpr.ParamUnadorned l t? → Shows l named {name | name ∈ TypeExpr.componentLookups t?} →
      componentOf A l named t? = .ok (info, notes) →
      info.Depicts l {name | name ∈ TypeExpr.componentLookups t?}
  | none, info, notes, _, hn, h => by
    have names : {other | other ∈ TypeExpr.componentLookups none} = {ScalarKind.f32.name} := by
      ext other
      simp [TypeExpr.componentLookups]
    rw [names] at hn ⊢
    exact hn _ rfl info notes h
  | some t, info, notes, ht, hn, h => depicts_typeInfoOf t info notes ht hn h

end

/-! ### Structures and names -/

theorem members_placeMember (p : LayoutM.Placement) (name : String) (type : TypeInfo)
    (size align : Nat) : ∃ offset,
      (placeMember A p name type size align).members = .mk name type offset size align :: p.members := by
  unfold placeMember
  split
  · exact ⟨_, rfl⟩
  · dsimp only
    split <;> exact ⟨_, rfl⟩

/-- The members are laid out one by one, the last one in front. -/
theorem members_foldlM {P : TypeInfo → Field → Prop} : ∀ (fields before : List Field)
    (p q : LayoutM.Placement) (notes : List String),
    (∀ m ∈ fields, ∀ t notes, typeInfoOf A l named m.type = .ok (t, notes) → P t m) →
      List.Forall₂ (fun x m => P x.type m) p.members before.reverse →
      fields.foldlM (addMember A l named) p = .ok (q, notes) →
      List.Forall₂ (fun x m => P x.type m) q.members (before ++ fields).reverse := by
  intro fields
  induction fields with
  | nil =>
    intro before p q notes _ hp h
    cases h
    rwa [List.append_nil]
  | cons m fields ih =>
    intro before p q notes hP hp h
    rw [List.foldlM_cons] at h
    obtain ⟨placed, _, _, hplaced, h, -⟩ := Noted.bind_ok h
    obtain ⟨t, _, _, ht, hplaced, -⟩ := Noted.bind_ok hplaced
    obtain ⟨align, _, _, -, hplaced, -⟩ := Noted.bind_ok hplaced
    obtain ⟨size, _, _, -, hplaced, -⟩ := Noted.bind_ok hplaced
    cases hplaced
    obtain ⟨offset, hmembers⟩ := members_placeMember (A := A) p m.name t
      (max (size.getD 0) t.size) (max (align.getD 0) t.align)
    have placed := ih (before ++ [m]) _ q _ (fun m hm => hP m (List.mem_cons_of_mem _ hm)) ?_ h
    · rwa [List.append_assoc, List.singleton_append] at placed
    · rw [hmembers, List.reverse_append]
      exact .cons (hP m List.mem_cons_self t _ ht) hp

/-- A structure refers to what its members ask for. -/
theorem refers_struct {name : String} {decl : StructDecl} (hdecl : l.structs.find? name = some decl)
    (other : String) : l.Refers name other ↔ other ∈ {n | ∃ m ∈ decl.members, n ∈ m.type.lookups} := by
  constructor
  · rintro (⟨decl', m, found, hm, asked⟩ | ⟨target, undeclared, -, -⟩)
    · rw [hdecl] at found
      cases found
      exact ⟨m, hm, asked⟩
    · rw [hdecl] at undeclared
      cases undeclared
  · rintro ⟨m, hm, asked⟩
    exact .struct decl m hdecl hm asked

/-- An alias refers to what its target asks for. -/
theorem refers_alias {name : String} {target : TypeExpr} (hstruct : l.structs.find? name = none)
    (htarget : l.aliases.find? name = some target) (other : String) :
    l.Refers name other ↔ other ∈ {n | n ∈ target.lookups} := by
  constructor
  · rintro (⟨decl, m, found, -, -⟩ | ⟨target', -, found, asked⟩)
    · rw [hstruct] at found
      cases found
    · rw [htarget] at found
      cases found
      exact asked
  · exact fun asked => .alias_ target hstruct htarget asked

theorem depicts_structInfoOf {name : String} {decl : StructDecl} (hl : l.Unadorned)
    (hdecl : l.structs.find? name = some decl) (hn : Shows l named {other | l.Refers name other})
    (h : structInfoOf A l named decl = .ok (info, notes)) : info.Depicts l {name} := by
  obtain ⟨p, _, _, hp, h, -⟩ := Noted.bind_ok h
  obtain ⟨size, _, _, -, h, -⟩ := Noted.bind_ok h
  cases h
  obtain rfl := hl.named name decl hdecl
  have placed : List.Forall₂ (fun x m => x.type.Depicts l {name | name ∈ m.type.lookups})
      p.members.reverse decl.members := by
    refine List.forall₂_reverse_iff.1 ?_
    rw [List.reverse_reverse]
    refine members_foldlM (P := fun t m => t.Depicts l {name | name ∈ m.type.lookups}) decl.members
      [] {} p _ (fun m hm t notes ht => ?_) .nil hp
    refine depicts_typeInfoOf m.type t notes (hl.members _ decl hdecl m hm) (fun other ho => ?_) ht
    exact hn other (.struct decl m hdecl hm ho)
  obtain ⟨faithful, keys⟩ := MemberInfo.depicts_of_forall₂ placed
  have inside : ∀ key, key ∈ MemberInfo.keys p.members.reverse ↔ key.Within (l.Holds decl.name) := by
    intro key
    rw [keys key]
    unfold StructKey.Within
    simp only [Layouts.holds_iff (refers_struct hdecl)]
  refine ⟨⟨⟨decl.name, rfl, inside⟩, faithful⟩, fun key => ?_⟩
  have declared : l.HasStruct decl.name := by
    rw [Layouts.HasStruct, hdecl]
    rfl
  rw [TypeInfo.keys, TypeShape.keys, List.mem_cons, inside key]
  unfold StructKey.Within
  simp only [Layouts.spans_singleton, and_or_left, exists_or, declared, true_and, exists_eq_right]

/-- By induction on the rank: the layout of a name is made of what the name stands for. -/
theorem depicts_named {rank : String → Nat} (hl : l.Unadorned) (hr : l.Ranked rank) (name : String) :
    ∀ info notes, Rules.named A l name = .ok (info, notes) → info.Depicts l {name} := by
  induction hrank : rank name using Nat.strong_induction_on generalizing name with
  | _ n ih =>
    subst hrank
    have inner : Shows l (Rules.named A l) {other | l.Refers name other} := fun other ho =>
      ih _ (hr.refers name other ho) other rfl
    intro info notes h
    rw [named_eq hr, structInfo] at h
    cases hdecl : l.structs.find? name with
    | some decl =>
      rw [hdecl] at h
      obtain ⟨info?, _, _, hinfo, h, -⟩ := Noted.bind_ok h
      obtain ⟨laid, _, _, hlaid, hinfo, -⟩ := Noted.bind_ok hinfo
      cases hinfo
      cases h
      exact depicts_structInfoOf hl hdecl inner hlaid
    | none =>
      rw [hdecl, pure_bind] at h
      have undeclared : ¬l.HasStruct name := by simp [Layouts.HasStruct, hdecl]
      cases htarget : l.aliases.find? name with
      | some target =>
        rw [htarget] at h
        have refers := refers_alias hdecl htarget
        have depicts := depicts_typeInfoOf target info notes (hl.targets name target htarget)
          (fun other ho => inner other ((refers other).2 ho)) h
        have same : l.Spans {name} = l.Spans {n | n ∈ target.lookups} := by
          ext s
          simp only [Layouts.spans_singleton, undeclared, false_and, false_or, Layouts.holds_iff refers]
        exact ⟨depicts.faithful, fun key => same ▸ depicts.keys key⟩
      | none =>
        rw [htarget] at h
        cases h
        refine TypeInfo.depicts_of_none ?_ ?_ ?_
        · rintro s hs
          obtain ⟨hname, -⟩ | ⟨-, path⟩ := Layouts.spans_singleton.1 hs
          · exact undeclared hname
          · obtain ⟨other, refers, -⟩ := Relation.TransGen.head'_iff.1 path
            cases refers with
            | struct _ _ found => rw [hdecl] at found; cases found
            | alias_ _ _ found => rw [htarget] at found; cases found
        · unfold TypeInfo.ofName
          cases ScalarKind.ofName? name <;> exact trivial
        · unfold TypeInfo.ofName
          cases ScalarKind.ofName? name <;> rfl

theorem depicts_typeInfo {rank : String → Nat} {t : TypeExpr} (hl : l.Unadorned) (hr : l.Ranked rank)
    (ht : t.Unadorned l) (h : Rules.typeInfo A l t = .ok (info, notes)) :
    info.Depicts l {name | name ∈ t.lookups} :=
  depicts_typeInfoOf t info notes ht (fun name _ => depicts_named hl hr name) h

theorem depicts_structInfo {rank : String → Nat} {name : String} (hl : l.Unadorned)
    (hr : l.Ranked rank) (h : Rules.structInfo A l name = .ok (some info, notes)) :
    info.Depicts l {name} := by
  unfold structInfo at h
  cases hdecl : l.structs.find? name with
  | some decl =>
    rw [hdecl] at h
    obtain ⟨laid, _, _, hlaid, h, -⟩ := Noted.bind_ok h
    cases h
    exact depicts_structInfoOf hl hdecl (fun other _ => depicts_named hl hr other) hlaid
  | none =>
    rw [hdecl] at h
    cases h

end Rules

end Wgsl
