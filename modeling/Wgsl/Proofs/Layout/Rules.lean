import Mathlib
import Wgsl.Proofs.Layout.Coherent
import Wgsl.Proofs.Layout.Placement

/-! # The rules of layout by themselves

What a type, a structure or a name is laid out as, computed afresh each time and from the
declarations alone. The rules leave open how sizes are computed: in words of thirty-two bits, noting
what does not fit, or exactly.

* `Rules.typeInfoOf`, `Rules.structInfoOf`: the rules, over the layouts of names.
* `Rules.named`: the layout of a name, following declarations.
* `Layouts.Refers`, `Layouts.Ranked`: declarations that do not refer to themselves.
* `Rules.named_eq`: the layout of a name obeys the rules, however deep declarations nest.
-/

namespace Wgsl
set_option autoImplicit false

/-! ## Outcomes -/

/-- A settled value with the names of the types that did not fit, or a fault. -/
def Noted (α : Type) := Except Fault (α × List String)

namespace Noted

variable {α β : Type}

instance : Monad Noted where
  pure a := .ok (a, [])
  bind x f := Except.bind x fun r => Except.map (Prod.map id (r.2 ++ ·)) (f r.1)

instance : LawfulMonad Noted := LawfulMonad.mk' Noted
  (fun x => by
    rcases x with e | ⟨a, notes⟩
    · rfl
    · exact congrArg (fun ns => Except.ok (a, ns)) (List.append_nil notes))
  (fun a f => by
    change Except.map _ (f a) = f a
    rcases f a with e | ⟨b, notes⟩ <;> rfl)
  (fun x f g => by
    rcases x with e | ⟨a, first⟩
    · rfl
    change Except.bind (Except.map _ (f a)) _ = Except.map _ (Except.bind (f a) _)
    rcases f a with e | ⟨b, second⟩
    · rfl
    change Except.map _ (g b) = Except.map _ (Except.map _ (g b))
    rcases g b with e | ⟨c, third⟩
    · rfl
    · exact congrArg (fun ns => Except.ok (c, ns)) (List.append_assoc first second third))

/-- A value computed without a size that could fail to fit. -/
def lift (r : Except Fault α) : Noted α := Except.map (·, []) r

/-- Notes a type that does not fit. -/
def note (name : String) : Noted Unit := .ok ((), [name])

theorem bind_ok {x : Noted α} {f : α → Noted β} {b : β} {notes : List String}
    (h : (x >>= f) = .ok (b, notes)) : ∃ a first second, x = .ok (a, first) ∧
      f a = .ok (b, second) ∧ notes = first ++ second := by
  obtain ⟨⟨a, first⟩, hx, h⟩ := Fault.bind_ok h
  cases hf : f a with
  | error e =>
    rw [hf] at h
    cases h
  | ok r =>
    obtain ⟨c, second⟩ := r
    rw [hf] at h
    cases h
    exact ⟨a, first, second, hx, hf, rfl⟩

theorem bind_error {x : Noted α} {f : α → Noted β} {e : Fault} (h : x = .error e) :
    (x >>= f) = .error e := by
  rw [h]
  rfl

theorem bind_eq {x : Noted α} {f : α → Noted β} {a : α} {first : List String}
    (h : x = .ok (a, first)) : (x >>= f) = Except.map (Prod.map id (first ++ ·)) (f a) := by
  rw [h]
  rfl

/-- What has been settled, without the notes. -/
def value (x : Noted α) : Except Fault α := Except.map Prod.fst x

theorem value_bind (x : Noted α) (f : α → Noted β) :
    (x >>= f).value = x.value >>= fun a => (f a).value := by
  rcases x with e | ⟨a, first⟩
  · rfl
  change (Except.map _ (f a)).map Prod.fst = (f a).map Prod.fst
  rcases f a with e | ⟨b, second⟩ <;> rfl

theorem value_mapM {f : α → Noted β} {g : α → Except Fault β} (items : List α)
    (h : ∀ a ∈ items, (f a).value = g a) : (items.mapM f).value = items.mapM g := by
  induction items with
  | nil => rfl
  | cons a items ih =>
    rw [List.mapM_cons, List.mapM_cons, value_bind, h a List.mem_cons_self,
      ← ih fun b hb => h b (List.mem_cons_of_mem a hb)]
    exact bind_congr fun b => value_bind _ _

end Noted

/-! ## Arithmetic -/

/-- How sizes are computed: what a product that is not checked comes to, and which of the checked
results fit. -/
structure Arithmetic where
  wrap : Nat → Nat
  fit : Nat → Option Nat

namespace Arithmetic

/-- In words of thirty-two bits. -/
def words : Arithmetic := ⟨(· % sizeLimit), checkedSize⟩

/-- In natural numbers. -/
def exact : Arithmetic := ⟨id, some⟩

/-- The least multiple of `k` that is at least `n`, if it fits; `n` itself if `k` is zero. -/
def roundUp? (A : Arithmetic) (k n : Nat) : Option Nat :=
  if k = 0 then some n else A.fit ((n + k - 1) / k * k)

end Arithmetic

namespace Rules

variable (A : Arithmetic) (l : Layouts)

/-! ## Types -/

/-- A size, or the saturated one with a note. -/
def sizeOr (name : String) : Option Nat → Noted Nat
  | some n => pure n
  | none => do
    Noted.note name
    return saturatedSize

/-- The first argument of an attribute as a number. -/
def attributeNumber? (attributes : List Attribute) (name : String) : Noted (Option Nat) :=
  match (Attribute.find? attributes name).bind fun a => a.args.head? with
  | some arg => do return (← Noted.lift (Expr.foldUInt32 l.constants arg)).map UInt32.toNat
  | none => pure none

/-- A vector of `length` elements. -/
def vectorInfo (base : String) (length : Nat) (element : TypeInfo) : TypeInfo :=
  .mk (base ++ "<" ++ element.name ++ ">") [] (A.wrap (length * element.size))
    (A.wrap ((if length = 2 then 2 else 4) * element.size))
    (.template base (some element) none none)

/-- A matrix of columns. -/
def matrixInfo (text base : String) (attributes : List Attribute) (columns rows : Nat)
    (element : TypeInfo) (access space : Option String) : TypeInfo :=
  let column := vectorInfo A ("vec" ++ toString rows) rows element
  let stride := (A.roundUp? column.align column.size).getD saturatedSize
  .mk text attributes (A.wrap (columns * stride)) column.align
    (.template base (some element) access space)

/-- A generator that is neither for vectors nor for matrices. Only atomics are stored. -/
def otherInfo (text base : String) (attributes : List Attribute) (param : Option TypeInfo)
    (access space : Option String) : TypeInfo :=
  let (size, align) := match base, param with
    | "atomic", some inner => (inner.size, inner.align)
    | _, _ => (0, 1)
  .mk text attributes size align (.template base param access space)

/-- A generator applied to a parameter. Vectors and matrices have components even if none are
written. -/
def templateInfo (text base : String) (attributes : List Attribute) (component : Noted TypeInfo)
    (param : Noted (Option TypeInfo)) (access space : Option String) : Noted TypeInfo :=
  match vectorLength? base with
  | some length => do
    return LayoutM.renamed (vectorInfo A base length (← component)) text attributes
  | none =>
    match matrixShape? base with
    | some (columns, rows) => do
      return matrixInfo A text base attributes columns rows (← component) access space
    | none => do return otherInfo text base attributes (← param) access space

/-- An array of settled elements. -/
def arrayInfo (text : String) (attributes : List Attribute) (element : TypeInfo)
    (count : Option Nat) : Noted TypeInfo := do
  let stride ← match ← attributeNumber? l attributes "stride" with
    | some stride => pure stride
    | none => sizeOr text (A.roundUp? element.align element.size)
  let size ← match count with
    | some n => sizeOr text (A.fit (n * stride))
    | none => pure 0
  return .mk text attributes size element.align (.array element count stride)

/-- A named type with attributes of its own. -/
def annotatedInfo (id : NodeId) (attributes : List Attribute) (shared : TypeInfo) : TypeInfo :=
  match shared.shape with
  | .struct _ members startLine endLine =>
    .mk shared.name attributes shared.size shared.align
      (.struct (.annotated id) members startLine endLine)
  | shape => .mk shared.name attributes shared.size shared.align shape

mutual

/-- The layout of a type node, with names laid out by `named`. -/
def typeInfoOf (named : String → Noted TypeInfo) : TypeExpr → Noted TypeInfo
  | .named id attributes name => do
    let shared ← named name
    return if attributes.isEmpty then shared else annotatedInfo id attributes shared
  | .array id attributes element count countExpr => do
    let element' ← componentOf named element
    arrayInfo A l (TypeExpr.array id attributes element count countExpr).text attributes element'
      (count.map UInt32.toNat)
  | .template id attributes base param access space =>
    templateInfo A (TypeExpr.template id attributes base param access space).text base attributes
      (componentOf named param) (paramInfoOf named param) access space

/-- The element of an array or the component of a vector or matrix; single-precision floats if none
is written. -/
def componentOf (named : String → Noted TypeInfo) : Option TypeExpr → Noted TypeInfo
  | none => named ScalarKind.f32.name
  | some t => typeInfoOf named t

def paramInfoOf (named : String → Noted TypeInfo) : Option TypeExpr → Noted (Option TypeInfo)
  | none => pure none
  | some t => do return some (← typeInfoOf named t)

end

/-! ## Structures and names -/

/-- Places one more member, at the next multiple of its alignment. -/
def placeMember (p : LayoutM.Placement) (name : String) (type : TypeInfo) (size align : Nat) : LayoutM.Placement :=
  match if p.overflowed then none else A.roundUp? align p.next with
  | none =>
    { p with
      overflowed := true
      members := .mk name type saturatedSize size align :: p.members }
  | some offset =>
    let members := .mk name type offset size align :: p.members
    let align := max p.align align
    match A.fit (offset + size) with
    | some next => { members, align, next, overflowed := false }
    | none => { members, align, next := saturatedSize, overflowed := true }

/-- Lays out one more member and places it. -/
def addMember (named : String → Noted TypeInfo) (p : LayoutM.Placement) (m : Field) : Noted LayoutM.Placement := do
  let type ← typeInfoOf A l named m.type
  let align := max ((← attributeNumber? l m.attributes "align").getD 0) type.align
  let size := max ((← attributeNumber? l m.attributes "size").getD 0) type.size
  return placeMember A p m.name type size align

/-- The layout of a structure. -/
def structInfoOf (named : String → Noted TypeInfo) (decl : StructDecl) : Noted TypeInfo := do
  let p ← decl.members.foldlM (addMember A l named) {}
  let align := max p.align 1
  let size ← sizeOr decl.name (if p.overflowed then none else A.roundUp? align p.next)
  return .mk decl.name decl.attributes size align
    (.struct (.declared decl.name) p.members.reverse decl.startLine decl.endLine)

/-- The layout of a name: structures first, then aliases, then scalars; any other name is a handle.
At most `depth` structures and aliases are entered. -/
def namedWithin : Nat → String → Noted TypeInfo
  | 0, name => pure (.handle name)
  | depth + 1, name =>
    match l.structs.find? name with
    | some decl => structInfoOf A l (namedWithin depth) decl
    | none =>
      match l.aliases.find? name with
      | some target => typeInfoOf A l (namedWithin depth) target
      | none => pure (.ofName name)

/-- The layout of a name. -/
def named (name : String) : Noted TypeInfo := namedWithin A l (LayoutM.depthOf l + 1) name

/-- The layout of a type node. -/
def typeInfo (t : TypeExpr) : Noted TypeInfo := typeInfoOf A l (named A l) t

/-- The layout of a structure, if it is declared. -/
def structInfo (name : String) : Noted (Option TypeInfo) :=
  match l.structs.find? name with
  | some decl => do return some (← structInfoOf A l (named A l) decl)
  | none => pure none

/-- The layout of a vector that no type node spells. -/
def vector (kind : ScalarKind) (length : Nat) : Noted TypeInfo := do
  return vectorInfo A ("vec" ++ toString length) length (← named A l kind.name)

/-- The answer to a question. -/
def answer : Layouts.Query → Noted (Option TypeInfo)
  | .type t => do return some (← typeInfo A l t)
  | .struct name => structInfo A l name
  | .named name => do return some (← named A l name)
  | .vector kind length => do return some (← vector A l kind length)

end Rules

/-! ## References -/

/-- Whether a generator is made of components. -/
def hasComponents (base : String) : Bool := (vectorLength? base).isSome || (matrixShape? base).isSome

mutual

/-- The names whose layouts the layout of a type asks for. -/
def TypeExpr.lookups : TypeExpr → List String
  | .named _ _ name => [name]
  | .array _ _ element _ _ => TypeExpr.componentLookups element
  | .template _ _ base param _ _ =>
    if hasComponents base then TypeExpr.componentLookups param else TypeExpr.paramLookups param

def TypeExpr.componentLookups : Option TypeExpr → List String
  | none => [ScalarKind.f32.name]
  | some t => TypeExpr.lookups t

def TypeExpr.paramLookups : Option TypeExpr → List String
  | none => []
  | some t => TypeExpr.lookups t

end

theorem Table.mem_of_find? {α : Type} {t : Table α} {name : String} {value : α}
    (h : t.find? name = some value) : (name, value) ∈ t := by
  obtain ⟨before, after, e, -⟩ := List.lookup_eq_some_iff.1 h
  rw [e]
  simp

/-- A relation without cycles that leads on from finitely many elements only: elements have ranks,
which it lowers. -/
theorem exists_rank {α : Type} {R : α → α → Prop} (sources : Finset α)
    (source : ∀ a b, R a b → a ∈ sources) (acyclic : ∀ a, ¬Relation.TransGen R a a) :
    ∃ rank : α → Nat, (∀ a b, R a b → rank b < rank a) ∧ (∀ a, rank a ≤ sources.card) ∧
      ∀ a ∈ sources, 0 < rank a := by
  classical
  -- The rank of an element is the number of sources that can be reached from it.
  refine ⟨fun a => (sources.filter (Relation.ReflTransGen R a)).card, fun a b hab => ?_,
    fun a => Finset.card_le_card (Finset.filter_subset _ _),
    fun a ha => Finset.card_pos.2 ⟨a, Finset.mem_filter.2 ⟨ha, .refl⟩⟩⟩
  refine Finset.card_lt_card (Finset.ssubset_iff_subset_ne.2 ⟨fun c hc => ?_, fun he => ?_⟩)
  · obtain ⟨hsource, hreach⟩ := Finset.mem_filter.1 hc
    exact Finset.mem_filter.2 ⟨hsource, .head hab hreach⟩
  · have self : a ∈ sources.filter (Relation.ReflTransGen R a) :=
      Finset.mem_filter.2 ⟨source a b hab, .refl⟩
    rw [← he] at self
    exact acyclic a (.head' hab (Finset.mem_filter.1 self).2)

namespace Layouts

/-- The declaration of one name asks for the layout of another. -/
inductive Refers (l : Layouts) (name other : String) : Prop where
  | struct (decl : StructDecl) (m : Field) (found : l.structs.find? name = some decl)
      (member : m ∈ decl.members) (asked : other ∈ m.type.lookups)
  | alias_ (target : TypeExpr) (undeclared : l.structs.find? name = none)
      (found : l.aliases.find? name = some target) (asked : other ∈ target.lookups)

/-- No declaration refers to itself, be it through others. -/
def Acyclic (l : Layouts) : Prop := ∀ name, ¬Relation.TransGen l.Refers name name

/-- Every declaration asks for names of lower rank. -/
def ordered (rank : String → Nat) (l : Layouts) : Bool :=
  (l.structs.all fun (name, decl) =>
    decl.members.all fun m => m.type.lookups.all fun other => rank other < rank name) &&
  l.aliases.all fun (name, target) => target.lookups.all fun other => rank other < rank name

/-- Declarations that can be ordered do not refer to themselves. -/
theorem acyclic_of_ordered {l : Layouts} {rank : String → Nat} (h : l.ordered rank = true) : l.Acyclic := by
  have lower : ∀ name other, l.Refers name other → rank other < rank name := by
    simp only [ordered, Bool.and_eq_true, List.all_eq_true, decide_eq_true_eq] at h
    intro name other hrefers
    cases hrefers with
    | struct decl m found member asked => exact h.1 (name, decl) (Table.mem_of_find? found) m member other asked
    | alias_ target _ found asked => exact h.2 (name, target) (Table.mem_of_find? found) other asked
  have chain : ∀ name other, Relation.TransGen l.Refers name other → rank other < rank name := by
    intro name other hchain
    induction hchain with
    | single hrefers => exact lower _ _ hrefers
    | tail _ hrefers ih => exact Nat.lt_trans (lower _ _ hrefers) ih
  exact fun name hself => Nat.lt_irrefl _ (chain name name hself)

/-- Declarations come after what they refer to, and there are not too many of them in a row. -/
structure Ranked (l : Layouts) (rank : String → Nat) : Prop where
  refers : ∀ name other, l.Refers name other → rank other < rank name
  bound : ∀ name, rank name < LayoutM.depthOf l

/-- The declared names. -/
def declaredNames (l : Layouts) : Finset String :=
  (l.structs.map Prod.fst ++ l.aliases.map Prod.fst).toFinset

theorem Refers.declared {l : Layouts} {name other : String} (h : l.Refers name other) :
    name ∈ l.declaredNames := by
  have listed : ∀ {α : Type} {t : Table α} {value : α}, t.find? name = some value →
      name ∈ t.map Prod.fst := fun found => List.mem_map_of_mem (Table.mem_of_find? found)
  rw [declaredNames, List.mem_toFinset, List.mem_append]
  cases h with
  | struct decl m found => exact Or.inl (listed found)
  | alias_ target _ found => exact Or.inr (listed found)

/-- Declarations that do not refer to themselves are ranked by how many they reach. -/
theorem Acyclic.ranked {l : Layouts} (h : l.Acyclic) : ∃ rank, l.Ranked rank := by
  obtain ⟨rank, lowers, bound, -⟩ := exists_rank l.declaredNames (fun _ _ => Refers.declared) h
  refine ⟨rank, lowers, fun name => ?_⟩
  have declared : l.declaredNames.card ≤ l.structs.length + l.aliases.length := by
    refine Nat.le_trans (List.toFinset_card_le _) ?_
    simp
  have product : (l.structs.length + 1) * (l.aliases.length + 1) =
      l.structs.length * l.aliases.length + l.structs.length + l.aliases.length + 1 := by ring
  have within := bound name
  unfold LayoutM.depthOf
  omega

end Layouts

/-! ## The depth of names -/

namespace Rules

variable {A : Arithmetic} {l : Layouts} {f g : String → Noted TypeInfo}

theorem templateInfo_congr {text base : String} {attributes : List Attribute}
    {component component' : Noted TypeInfo} {param param' : Noted (Option TypeInfo)}
    {access space : Option String} (hc : hasComponents base = true → component = component')
    (hp : hasComponents base = false → param = param') :
    templateInfo A text base attributes component param access space =
      templateInfo A text base attributes component' param' access space := by
  unfold templateInfo
  split
  · rename_i hv
    rw [hc (by rw [hasComponents, hv]; rfl)]
  · rename_i hv
    split
    · rename_i hm
      rw [hc (by rw [hasComponents, hm, Option.isSome_some, Bool.or_true])]
    · rename_i hm
      rw [hp (by rw [hasComponents, hv, hm]; rfl)]

mutual

/-- The layout of a type depends on the layouts of the names it asks for. -/
theorem typeInfoOf_congr : ∀ t : TypeExpr, (∀ name ∈ t.lookups, f name = g name) →
    typeInfoOf A l f t = typeInfoOf A l g t
  | .named id attributes name, h => by
    rw [typeInfoOf, typeInfoOf, h name List.mem_cons_self]
  | .array id attributes element count countExpr, h => by
    rw [typeInfoOf, typeInfoOf, componentOf_congr element h]
  | .template id attributes base param access space, h => by
    rw [typeInfoOf, typeInfoOf]
    refine templateInfo_congr (fun hb => componentOf_congr param fun name hn => h name ?_)
      fun hb => paramInfoOf_congr param fun name hn => h name ?_
    · rwa [TypeExpr.lookups, if_pos hb]
    · rwa [TypeExpr.lookups, if_neg (Bool.not_eq_true _ ▸ hb)]

theorem componentOf_congr : ∀ t? : Option TypeExpr,
    (∀ name ∈ TypeExpr.componentLookups t?, f name = g name) →
    componentOf A l f t? = componentOf A l g t?
  | none, h => h _ List.mem_cons_self
  | some t, h => typeInfoOf_congr t h

theorem paramInfoOf_congr : ∀ t? : Option TypeExpr,
    (∀ name ∈ TypeExpr.paramLookups t?, f name = g name) →
    paramInfoOf A l f t? = paramInfoOf A l g t?
  | none, _ => rfl
  | some t, h => by rw [paramInfoOf, paramInfoOf, typeInfoOf_congr t h]

end

theorem structInfoOf_congr {decl : StructDecl}
    (h : ∀ m ∈ decl.members, ∀ name ∈ m.type.lookups, f name = g name) :
    structInfoOf A l f decl = structInfoOf A l g decl := by
  have placed : ∀ (members : List Field) (p : LayoutM.Placement),
      (∀ m ∈ members, ∀ name ∈ m.type.lookups, f name = g name) →
      members.foldlM (addMember A l f) p = members.foldlM (addMember A l g) p := by
    intro members
    induction members with
    | nil => exact fun _ _ => rfl
    | cons m members ih =>
      intro p h
      rw [List.foldlM_cons, List.foldlM_cons, addMember, addMember,
        typeInfoOf_congr m.type (h m List.mem_cons_self)]
      exact congrArg (_ >>= ·) (funext fun p => ih p fun n hn => h n (List.mem_cons_of_mem m hn))
  rw [structInfoOf, structInfoOf, placed decl.members {} h]

/-- Only for a name without a structure there is no layout of a structure. -/
theorem find?_of_structInfo_none {name : String} {notes : List String}
    (h : structInfo A l name = .ok (none, notes)) : l.structs.find? name = none := by
  cases hdecl : l.structs.find? name with
  | none => rfl
  | some decl =>
    rw [structInfo, hdecl] at h
    obtain ⟨info, first, second, -, hsome, -⟩ := Noted.bind_ok h
    cases hsome

section

variable {rank : String → Nat} (hr : l.Ranked rank)

include hr

/-- Names are followed no deeper than their rank. -/
theorem namedWithin_succ : ∀ (depth : Nat) (name : String), rank name < depth →
    namedWithin A l depth name = namedWithin A l (depth + 1) name := by
  intro depth
  induction depth with
  | zero => exact fun name h => absurd h (Nat.not_lt_zero _)
  | succ depth ih =>
    intro name hname
    have inner : ∀ other, l.Refers name other →
        namedWithin A l depth other = namedWithin A l (depth + 1) other := fun other hrefers =>
      ih other (Nat.lt_of_lt_of_le (hr.refers name other hrefers) (Nat.le_of_lt_succ hname))
    rw [namedWithin, namedWithin]
    cases hdecl : l.structs.find? name with
    | some decl =>
      exact structInfoOf_congr fun m hm other ho => inner other (.struct decl m hdecl hm ho)
    | none =>
      cases htarget : l.aliases.find? name with
      | some target => exact typeInfoOf_congr target fun other ho => inner other (.alias_ target hdecl htarget ho)
      | none => rfl

/-- The layout of a name follows its declaration. -/
theorem named_eq (name : String) : named A l name = (do
    match ← structInfo A l name with
    | some info => pure info
    | none =>
      match l.aliases.find? name with
      | some target => typeInfo A l target
      | none => pure (.ofName name)) := by
  have inner : ∀ other, l.Refers name other →
      namedWithin A l (LayoutM.depthOf l) other = named A l other := fun other hrefers =>
    namedWithin_succ hr _ other (hr.bound other)
  rw [named, namedWithin, structInfo]
  cases hdecl : l.structs.find? name with
  | some decl =>
    rw [bind_assoc]
    simp only [pure_bind, bind_pure]
    exact structInfoOf_congr fun m hm other ho => inner other (.struct decl m hdecl hm ho)
  | none =>
    rw [pure_bind]
    cases htarget : l.aliases.find? name with
    | some target => exact typeInfoOf_congr target fun other ho => inner other (.alias_ target hdecl htarget ho)
    | none => rfl

end

end Rules

end Wgsl
