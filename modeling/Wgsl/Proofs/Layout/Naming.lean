import Wgsl.Proofs.Layout.Coherent

/-! # What generators are called

A generator or an array is laid out under the name that is written, whatever has been laid out before
and also where declarations refer to themselves.

* `Layouts.Labelled`: what is remembered for a generator is called as it is written.
* `LayoutM.labels_typeInfo`, `LayoutM.labels_structInfo`: laying out keeps it so.
* `LayoutM.name_typeInfo`: the layout of a generator is called as it is written.
-/

namespace Wgsl
set_option autoImplicit false

/-- Whether the type is more than a plain name. -/
def TypeExpr.isGenerator : TypeExpr → Bool
  | .named .. => false
  | .template .. => true
  | .array .. => true

/-- Only types among the nodes are declared, and what is remembered for a generator among them is
called as it is written. -/
structure Layouts.Labelled (nodes : List Node) (l : Layouts) : Prop where
  structs : ∀ name decl, l.structs.find? name = some decl →
    ∀ m ∈ decl.members, ∀ n ∈ m.type.nodes, n ∈ nodes
  aliases : ∀ name target, l.aliases.find? name = some target → ∀ n ∈ target.nodes, n ∈ nodes
  names : ∀ t info, Node.type t ∈ nodes → t.isGenerator = true →
    l.byNode.lookup t.id = some info → info.name = t.text

namespace LayoutM

variable {α β : Type} {nodes : List Node} {named : String → LayoutM TypeInfo} {l l' : Layouts}
  {info : TypeInfo} {t : TypeExpr}

/-! ## Names of what is laid out -/

theorem name_templateInfo {text base : String} {attributes : List Attribute} {param : Option TypeInfo}
    {access space : Option String}
    (h : (templateInfo named text base attributes param access space).run l = .ok (info, l')) :
    info.name = text := by
  unfold templateInfo at h
  dsimp only at h
  split at h
  · obtain ⟨component, l₁, -, h⟩ := bind_ok h
    cases h
    rfl
  · split at h
    · obtain ⟨component, l₁, -, h⟩ := bind_ok h
      cases h
      rfl
    · cases h
      rfl

theorem name_sizedArray {text : String} {attributes : List Attribute} {element : TypeInfo}
    {count : Option Nat} (stride : Nat) (l : Layouts) (h : (do
      let size ← match count with
        | some n => sizeOr text (checkedSize (n * stride))
        | none => pure 0
      return TypeInfo.mk text attributes size element.align (.array element count stride) :
        LayoutM TypeInfo).run l = .ok (info, l')) : info.name = text := by
  cases count with
  | none =>
    cases h
    rfl
  | some n =>
    obtain ⟨size, l₁, -, h⟩ := bind_ok h
    cases h
    rfl

theorem name_arrayInfo {text : String} {attributes : List Attribute} {element : TypeInfo}
    {count : Option Nat} (h : (arrayInfo text attributes element count).run l = .ok (info, l')) :
    info.name = text := by
  obtain ⟨stride?, l₁, -, h⟩ := bind_ok h
  cases stride? with
  | some stride => exact name_sizedArray stride l₁ h
  | none =>
    obtain ⟨stride, l₂, -, h⟩ := bind_ok h
    exact name_sizedArray stride l₂ h

theorem name_layOutOf (ht : t.isGenerator = true) (h : (layOutOf named t).run l = .ok (info, l')) :
    info.name = t.text := by
  cases t with
  | named => cases ht
  | template =>
    obtain ⟨param, l₁, -, h⟩ := bind_ok h
    exact name_templateInfo h
  | array =>
    obtain ⟨element?, l₁, -, h⟩ := bind_ok h
    cases element? with
    | some element => exact name_arrayInfo h
    | none =>
      obtain ⟨element, l₂, -, h⟩ := bind_ok h
      exact name_arrayInfo h

/-! ## Remembering -/

/-- Laying out keeps the names. -/
def Labels (nodes : List Node) (x : LayoutM α) : Prop :=
  ∀ l a l', l.Labelled nodes → x.run l = .ok (a, l') → l'.Labelled nodes

def labelling (nodes : List Node) : Laying where
  toPassing := .keeping fun l => l.Labelled nodes
  obeys_note f hf l a l' hl h := by
    cases h
    rw [(hf l).same]
    exact ⟨hl.structs, hl.aliases, hl.names⟩

theorem labels_get {f : Layouts → LayoutM α}
    (h : ∀ l, l.Labelled nodes → Labels nodes (f l)) : Labels nodes (get >>= f) :=
  fun l a l' hl hrun => h l hl l a l' hl hrun

section

variable (hapart : TypesApart nodes)

include hapart

/-- A node that is not a generator shares its number with none. -/
theorem labels_remembering (ht : Node.type t ∈ nodes) (h : Labels nodes (layOutOf named t)) :
    Labels nodes (remembering t.id (layOutOf named t)) := by
  intro l info l' hl hrun
  obtain ⟨_, _, hget, hrun⟩ := bind_ok hrun
  cases hget
  split at hrun
  · cases hrun
    exact hl
  · obtain ⟨laid, l₁, hlaid, hrun⟩ := bind_ok hrun
    obtain ⟨_, l₂, hmodify, hrun⟩ := bind_ok hrun
    cases hmodify
    cases hrun
    have inner := h _ _ _ hl hlaid
    refine ⟨inner.structs, inner.aliases, fun u known hu hgen hknown => ?_⟩
    by_cases hid : u.id = t.id
    · obtain rfl := hapart u t hu ht hid
      rw [List.lookup_cons, beq_self_eq_true] at hknown
      cases hknown
      exact name_layOutOf hgen hlaid
    · rw [List.lookup_cons, beq_false_of_ne hid] at hknown
      exact inner.names u known hu hgen hknown

theorem labels_typeInfoOf (hn : ∀ name, Labels nodes (named name)) (ht : ∀ n ∈ t.nodes, n ∈ nodes) :
    Labels nodes (typeInfoOf named t) := by
  refine Laying.obeys_typeInfoOf (C := labelling nodes) (T := fun t => ∀ n ∈ t.nodes, n ∈ nodes) hn
    (fun t param ht hp n hn => ht n ?_) (fun t ht h => labels_remembering hapart (ht _ ?_) h) t ht
  · cases t with
    | named => cases hp
    | template =>
      cases hp
      exact List.mem_cons_of_mem _ (List.mem_append_right _ hn)
    | array =>
      cases hp
      exact List.mem_cons_of_mem _ (List.mem_append_left _ (List.mem_append_right _ hn))
  · exact t.mem_nodes

theorem labels_structInfoOf (hn : ∀ name, Labels nodes (named name)) {decl : StructDecl}
    (hdecl : ∀ m ∈ decl.members, ∀ n ∈ m.type.nodes, n ∈ nodes) :
    Labels nodes (structInfoOf named decl) := by
  have number : ∀ attributes name, Labels nodes (attributeNumber? attributes name) := fun _ _ =>
    Passing.obeys_attributeNumber? (C := (labelling nodes).toPassing) _ _
  refine (labelling nodes).obeys_bind
    (Passing.obeys_foldlM (C := (labelling nodes).toPassing) (fun placed m hm => ?_) _) fun placed => ?_
  · refine (labelling nodes).obeys_bind (labels_typeInfoOf hapart hn (hdecl m hm)) fun type => ?_
    refine (labelling nodes).obeys_bind (number _ _) fun align => ?_
    exact (labelling nodes).obeys_bind (number _ _) fun size => (labelling nodes).obeys_pure _
  · refine (labelling nodes).obeys_bind (Laying.obeys_sizeOr (C := labelling nodes) _ _) fun size => ?_
    exact (labelling nodes).obeys_pure _

theorem labels_structInfoWith (hn : ∀ name, Labels nodes (named name)) (name : String) :
    Labels nodes (structInfoWith named name) := by
  intro l found l' hl h
  obtain ⟨_, _, hget, h⟩ := bind_ok h
  cases hget
  split at h
  · cases h
    exact hl
  · split at h
    · cases h
      exact hl
    · rename_i decl hdecl
      split at h
      · cases h
        exact hl
      · obtain ⟨_, l₁, hset, h⟩ := bind_ok h
        cases hset
        obtain ⟨info, l₂, hinfo, h⟩ := bind_ok h
        obtain ⟨_, l₃, hmodify, h⟩ := bind_ok h
        cases hmodify
        cases h
        have inner := labels_structInfoOf hapart hn (hl.structs name decl hdecl)
          { l with inProgress := name :: l.inProgress } info l₂ ⟨hl.structs, hl.aliases, hl.names⟩ hinfo
        exact ⟨inner.structs, inner.aliases, inner.names⟩

/-- By induction on how deep names are followed. -/
theorem labels_namedWithin (depth : Nat) : ∀ name, Labels nodes (namedWithin depth name) := by
  induction depth with
  | zero => exact fun name => (labelling nodes).obeys_pure _
  | succ depth ih =>
    intro name
    refine (labelling nodes).obeys_bind (labels_structInfoWith hapart ih name) fun info? => ?_
    cases info? with
    | some info => exact (labelling nodes).obeys_pure _
    | none =>
      refine labels_get fun l hl => ?_
      dsimp only
      split
      · rename_i target htarget
        exact labels_typeInfoOf hapart ih (hl.aliases name target htarget)
      · refine labels_get fun l hl => ?_
        split
        · exact (labelling nodes).obeys_pure _
        · intro l info l' hl h
          cases h
          exact ⟨hl.structs, hl.aliases, hl.names⟩

theorem labels_typeInfo (ht : ∀ n ∈ t.nodes, n ∈ nodes) : Labels nodes (typeInfo t) :=
  labels_get fun _ _ => labels_typeInfoOf hapart (labels_namedWithin hapart _) ht

theorem labels_structInfo (name : String) : Labels nodes (structInfo name) :=
  labels_get fun _ _ => labels_structInfoWith hapart (labels_namedWithin hapart _) name

/-- The layout of a generator is called as it is written. -/
theorem name_typeInfo (ht : ∀ n ∈ t.nodes, n ∈ nodes) (hgen : t.isGenerator = true)
    (hl : l.Labelled nodes) (h : (typeInfo t).run l = .ok (info, l')) : info.name = t.text := by
  refine (labels_typeInfo hapart ht l info l' hl h).names t info (ht _ t.mem_nodes) hgen ?_
  obtain ⟨depth, _, hdepth, h⟩ := bind_ok h
  cases hdepth
  exact typeInfoOf_remembers h

end

end LayoutM

end Wgsl
