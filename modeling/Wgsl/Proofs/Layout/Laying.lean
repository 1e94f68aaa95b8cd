import Wgsl.Layout.Cache
import Wgsl.Proofs.Tree.Nodes

/-! # Properties of every layout

What lays out a type asks for the layouts of the types inside it, reads the constants and notes what
does not fit. A `Laying` is a property of such computations that passes from the parts to the whole.

* `Laying.obeys_typeInfoOf`: the layout of a type node, where remembering a node keeps the property.
* `Layouts.Extends`: nothing that has been remembered is forgotten or replaced.
* `LayoutM.growing`: laying out extends the memory, and of the structures in use it adds annotated
  ones at most.
-/

namespace Wgsl
set_option autoImplicit false

theorem Fault.bind_ok {α β : Type} {x : Except Fault α} {f : α → Except Fault β} {b : β}
    (h : (x >>= f) = .ok b) : ∃ a, x = .ok a ∧ f a = .ok b := by
  cases x with
  | error e => cases h
  | ok a => exact ⟨a, rfl, h⟩

theorem Fault.ok_of_toOption {α : Type} {x : Except Fault α} {a : α} (h : x.toOption = some a) :
    x = .ok a := by
  cases x with
  | error e => cases h
  | ok b =>
    cases h
    rfl

theorem LayoutM.bind_ok {α β : Type} {l l₂ : Layouts} {b : β} {x : LayoutM α} {f : α → LayoutM β}
    (h : (x >>= f).run l = .ok (b, l₂)) :
    ∃ a l₁, x.run l = .ok (a, l₁) ∧ (f a).run l₁ = .ok (b, l₂) := by
  obtain ⟨⟨a, l₁⟩, hx, hf⟩ := Fault.bind_ok (f := fun r : α × Layouts => f r.1 r.2) h
  exact ⟨a, l₁, hx, hf⟩

/-- `l'` is `l` with more types noted as too large, and more annotated structures as in use. -/
structure Layouts.Notes (l l' : Layouts) : Prop where
  same : l' = { l with oversized := l'.oversized, live := l'.live }
  live : ∃ added, l'.live = added ++ l.live ∧ ∀ key ∈ added, ∃ id, key = StructKey.annotated id

/-- A property of computations on layouts that goes from the parts to the whole. -/
structure Passing where
  obeys : {α : Type} → LayoutM α → Prop
  obeys_pure : ∀ {α : Type} (a : α), obeys (pure a : LayoutM α)
  obeys_bind : ∀ {α β : Type} {x : LayoutM α} {f : α → LayoutM β},
    obeys x → (∀ a, obeys (f a)) → obeys (x >>= f)
  obeys_lift : ∀ {α : Type} (r : Except Fault α), obeys (liftM r : LayoutM α)
  obeys_constants : ∀ {α : Type} {f : Table Expr → LayoutM α},
    (∀ c, obeys (f c)) → obeys (get >>= fun l => f l.constants)

/-- A property of all that lays out types. -/
structure Laying extends Passing where
  /-- Noting a type that does not fit or is in use. -/
  obeys_note : ∀ f : Layouts → Layouts, (∀ l : Layouts, l.Notes (f l)) →
    obeys (modify f : LayoutM PUnit)

namespace Passing

open LayoutM

variable {C : Passing} {α β : Type}

/-- What holds of the memory still holds when the computation has been run. -/
def keeping (I : Layouts → Prop) : Passing where
  obeys {α} x := ∀ (l : Layouts) (a : α) (l' : Layouts), I l → x.run l = .ok (a, l') → I l'
  obeys_pure a l b l' hl h := by
    cases h
    exact hl
  obeys_bind hx hf l b l₂ hl h := by
    obtain ⟨a, l₁, h₁, h₂⟩ := bind_ok h
    exact hf a l₁ b l₂ (hx l a l₁ hl h₁) h₂
  obeys_lift r l a l' hl h := by
    cases r with
    | error f => cases h
    | ok b =>
      cases h
      exact hl
  obeys_constants h l := h l.constants l

theorem obeys_attributeNumber? (attributes : List Attribute) (name : String) :
    C.obeys (attributeNumber? attributes name) := by
  unfold attributeNumber?
  split
  · rename_i arg _
    exact C.obeys_constants (f := fun c => do return (← Expr.foldUInt32 c arg).map UInt32.toNat)
      fun c => C.obeys_bind (C.obeys_lift _) fun _ => C.obeys_pure _
  · exact C.obeys_pure _

theorem obeys_foldlM {f : β → α → LayoutM β} {items : List α} (h : ∀ b, ∀ a ∈ items, C.obeys (f b a))
    (init : β) : C.obeys (items.foldlM f init) := by
  induction items generalizing init with
  | nil => exact C.obeys_pure init
  | cons a items ih =>
    rw [List.foldlM_cons]
    refine C.obeys_bind (h init a List.mem_cons_self) fun b => ?_
    exact ih (fun b c hc => h b c (List.mem_cons_of_mem _ hc)) b

theorem obeys_mapM {f : α → LayoutM β} {items : List α} (h : ∀ a ∈ items, C.obeys (f a)) :
    C.obeys (items.mapM f) := by
  induction items with
  | nil => exact C.obeys_pure []
  | cons a items ih =>
    rw [List.mapM_cons]
    refine C.obeys_bind (h a List.mem_cons_self) fun b => ?_
    exact C.obeys_bind (ih fun c hc => h c (List.mem_cons_of_mem _ hc)) fun bs => C.obeys_pure _

theorem obeys_forM {f : α → LayoutM PUnit} {items : List α} (h : ∀ a ∈ items, C.obeys (f a)) :
    C.obeys (items.forM f) := by
  induction items with
  | nil => exact C.obeys_pure _
  | cons a items ih =>
    rw [List.forM_eq_forM, List.forM_cons]
    refine C.obeys_bind (h a List.mem_cons_self) fun _ => ?_
    exact ih fun c hc => h c (List.mem_cons_of_mem _ hc)

end Passing

namespace Laying

open LayoutM

variable {C : Laying} {named : String → LayoutM TypeInfo}

theorem obeys_overflow (name : String) : C.obeys (overflow name) := by
  refine C.obeys_bind (C.obeys_note _ fun l => ?_) fun _ => C.obeys_pure _
  split <;> exact ⟨rfl, [], rfl, nofun⟩

theorem obeys_sizeOr (name : String) (size : Option Nat) : C.obeys (sizeOr name size) := by
  cases size with
  | none => exact obeys_overflow name
  | some n => exact C.obeys_pure n

/-- The component that a template names, or the one that goes without saying. -/
theorem obeys_component (hn : ∀ name, C.obeys (named name)) (param : Option TypeInfo) :
    C.obeys (match param with
      | some t => pure t
      | none => scalarOf named .f32) := by
  cases param with
  | some t => exact C.obeys_pure t
  | none => exact hn _

theorem obeys_templateInfo (hn : ∀ name, C.obeys (named name)) (text base : String)
    (attributes : List Attribute) (param : Option TypeInfo) (access space : Option String) :
    C.obeys (templateInfo named text base attributes param access space) := by
  have component := obeys_component hn param
  unfold templateInfo
  dsimp only
  split
  · exact C.obeys_bind component fun _ => C.obeys_pure _
  · split
    · exact C.obeys_bind component fun _ => C.obeys_pure _
    · exact C.obeys_pure _

theorem obeys_sizedArray (text : String) (attributes : List Attribute) (element : TypeInfo)
    (count : Option Nat) (stride : Nat) : C.obeys (do
      let size ← match count with
        | some n => sizeOr text (checkedSize (n * stride))
        | none => pure 0
      return TypeInfo.mk text attributes size element.align (.array element count stride)) := by
  cases count with
  | none => exact C.obeys_pure _
  | some n => exact C.obeys_bind (obeys_sizeOr _ _) fun _ => C.obeys_pure _

theorem obeys_arrayInfo (text : String) (attributes : List Attribute) (element : TypeInfo)
    (count : Option Nat) : C.obeys (arrayInfo text attributes element count) := by
  have rest := obeys_sizedArray (C := C) text attributes element count
  refine C.obeys_bind (Passing.obeys_attributeNumber? _ _) fun stride => ?_
  cases stride with
  | some stride => exact rest stride
  | none => exact C.obeys_bind (obeys_sizeOr _ _) rest

theorem obeys_annotatedInfo (id : NodeId) (attributes : List Attribute) (shared : TypeInfo) :
    C.obeys (annotatedInfo id attributes shared) := by
  unfold annotatedInfo
  split
  · refine C.obeys_bind (C.obeys_note _ fun l => ?_) fun _ => C.obeys_pure _
    split
    · exact ⟨rfl, [.annotated id], rfl, fun key hkey => ⟨id, List.mem_singleton.1 hkey⟩⟩
    · exact ⟨rfl, [], rfl, nofun⟩
  · exact C.obeys_pure _

end Laying

namespace LayoutM

/-- The layout of a type node that has not been remembered. -/
def layOutOf (named : String → LayoutM TypeInfo) (t : TypeExpr) : LayoutM TypeInfo := do
  match t with
  | .named id attributes name =>
    let shared ← named name
    if attributes.isEmpty then return shared else annotatedInfo id attributes shared
  | .array id attributes element count countExpr =>
    let element' ← match ← paramInfoOf named element with
      | some t => pure t
      | none => scalarOf named .f32
    arrayInfo (TypeExpr.array id attributes element count countExpr).text attributes element'
      (count.map UInt32.toNat)
  | .template id attributes base param access space =>
    let param' ← paramInfoOf named param
    templateInfo named (TypeExpr.template id attributes base param access space).text base attributes
      param' access space

theorem typeInfoOf_eq (named : String → LayoutM TypeInfo) (t : TypeExpr) :
    typeInfoOf named t = remembering t.id (layOutOf named t) := by
  cases t <;> rfl

end LayoutM

namespace Laying

open LayoutM

variable {C : Laying} {named : String → LayoutM TypeInfo} {T : TypeExpr → Prop}

section

variable (hn : ∀ name, C.obeys (named name))
  (hp : ∀ t param, T t → t.param? = some param → T param)
  (hr : ∀ t, T t → C.obeys (layOutOf named t) → C.obeys (remembering t.id (layOutOf named t)))

include hn hp hr

mutual

/-- By induction on the type: what the layouts of its parameters obey, its own does. -/
theorem obeys_typeInfoOf : ∀ t : TypeExpr, T t → C.obeys (typeInfoOf named t)
  | .named id attributes name, ht => by
    rw [typeInfoOf_eq]
    refine hr _ ht (C.obeys_bind (hn name) fun shared => ?_)
    split
    · exact C.obeys_pure _
    · exact obeys_annotatedInfo _ _ _
  | .array id attributes element count countExpr, ht => by
    rw [typeInfoOf_eq]
    refine hr _ ht (C.obeys_bind (obeys_paramInfoOf element (hp _ · ht)) fun element' => ?_)
    cases element' with
    | some t => exact obeys_arrayInfo _ _ _ _
    | none => exact C.obeys_bind (hn _) fun _ => obeys_arrayInfo _ _ _ _
  | .template id attributes base param access space, ht => by
    rw [typeInfoOf_eq]
    refine hr _ ht (C.obeys_bind (obeys_paramInfoOf param (hp _ · ht)) fun param' => ?_)
    exact obeys_templateInfo hn _ _ _ _ _ _

theorem obeys_paramInfoOf : ∀ t? : Option TypeExpr, (∀ t, t? = some t → T t) →
    C.obeys (paramInfoOf named t?)
  | none, _ => C.obeys_pure none
  | some t, ht => C.obeys_bind (obeys_typeInfoOf t (ht t rfl)) fun _ => C.obeys_pure _

end

end

end Laying

/-! ## Nothing is forgotten -/

/-- The declarations are the same, and what has been remembered still is. -/
structure Layouts.Extends (l l' : Layouts) : Prop where
  structs : l'.structs = l.structs
  aliases : l'.aliases = l.aliases
  constants : l'.constants = l.constants
  inProgress : l'.inProgress = l.inProgress
  byNode : ∀ id info, l.byNode.lookup id = some info → l'.byNode.lookup id = some info
  byStruct : ∀ name info, l.byStruct.find? name = some info → l'.byStruct.find? name = some info
  /-- Only declared structures are laid out. -/
  undeclared : ∀ name, l.structs.find? name = none → l'.byStruct.find? name = l.byStruct.find? name

/-- Beyond that, annotated structures may have come into use, but nothing else about use has
changed. -/
structure Layouts.Grows (l l' : Layouts) : Prop extends l.Extends l' where
  live : ∃ added, l'.live = added ++ l.live ∧ ∀ key ∈ added, ∃ id, key = StructKey.annotated id

namespace Layouts

variable {l l' l'' : Layouts}

theorem Extends.refl (l : Layouts) : l.Extends l :=
  ⟨rfl, rfl, rfl, rfl, fun _ _ => id, fun _ _ => id, fun _ _ => rfl⟩

theorem Extends.trans (h : l.Extends l') (h' : l'.Extends l'') : l.Extends l'' where
  structs := h'.structs.trans h.structs
  aliases := h'.aliases.trans h.aliases
  constants := h'.constants.trans h.constants
  inProgress := h'.inProgress.trans h.inProgress
  byNode id info hid := h'.byNode id info (h.byNode id info hid)
  byStruct name info hname := h'.byStruct name info (h.byStruct name info hname)
  undeclared name hname := by
    rw [h'.undeclared name (h.structs ▸ hname), h.undeclared name hname]

/-- What is in use is not part of the memory. -/
theorem Extends.live (h : l.Extends l') (live : List StructKey) : l.Extends { l' with live } :=
  ⟨h.structs, h.aliases, h.constants, h.inProgress, h.byNode, h.byStruct, h.undeclared⟩

theorem Grows.refl (l : Layouts) : l.Grows l := ⟨.refl l, [], rfl, nofun⟩

theorem Grows.trans (h : l.Grows l') (h' : l'.Grows l'') : l.Grows l'' := by
  obtain ⟨added, hlive, hadded⟩ := h.live
  obtain ⟨more, hlive', hmore⟩ := h'.live
  refine ⟨h.toExtends.trans h'.toExtends, more ++ added, ?_, fun key hkey => ?_⟩
  · rw [hlive', hlive, List.append_assoc]
  · exact (List.mem_append.1 hkey).elim (hmore key) (hadded key)

theorem Notes.grows (h : l.Notes l') : l.Grows l' := by
  obtain ⟨hsame, hlive⟩ := h
  rw [hsame]
  exact ⟨⟨rfl, rfl, rfl, rfl, fun _ _ => id, fun _ _ => id, fun _ _ => rfl⟩, hlive⟩

end Layouts

namespace LayoutM

variable {α β : Type}

/-- The computation lays out types. -/
def Growing (x : LayoutM α) : Prop := ∀ l a l', x.run l = .ok (a, l') → l.Grows l'

theorem growing_bind {x : LayoutM α} {f : α → LayoutM β} (hx : Growing x)
    (hf : ∀ a, Growing (f a)) : Growing (x >>= f) := by
  intro l b l₂ h
  obtain ⟨a, l₁, h₁, h₂⟩ := bind_ok h
  exact (hx l a l₁ h₁).trans (hf a l₁ b l₂ h₂)

/-- Reading what has been remembered. -/
theorem growing_get {f : Layouts → LayoutM α} (h : ∀ l, Growing (f l)) :
    Growing (get >>= f) := fun l => h l l

def growing : Laying where
  obeys x := Growing x
  obeys_pure a l b l' h := by
    cases h
    exact .refl l
  obeys_bind := growing_bind
  obeys_lift r l a l' h := by
    cases r with
    | error f => cases h
    | ok b =>
      cases h
      exact .refl l
  obeys_constants h := growing_get fun l => h l.constants
  obeys_note f hf l a l' h := by
    cases h
    exact (hf l).grows

end LayoutM

end Wgsl
