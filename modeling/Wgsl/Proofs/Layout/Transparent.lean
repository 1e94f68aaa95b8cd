import Wgsl.Proofs.Layout.Rules
import Wgsl.Proofs.Tree.Mentioned

/-! # What has been remembered makes no difference

Whatever has been asked before, a question is answered by the rules of layout alone. This needs
declarations that do not refer to themselves: then no structure is asked for while it is laid out, and
names are never followed too deep.

* `Layouts.Follows`: what is remembered is what the rules give, and what they note has been noted.
* `LayoutM.Denotes`: a computation gives what the rules give, with every memory that follows them.
* `LayoutM.denotes_namedWithin`: the layout of a name.
* `Layouts.answers_transparent`: any sequence of questions.
-/

namespace Wgsl
set_option autoImplicit false

/-- The name under which a vector is remembered that no type node spells. -/
def vectorName (kind : ScalarKind) (length : Nat) : String :=
  "vec" ++ toString length ++ "<" ++ kind.name ++ ">"

theorem bracket_mem_vectorName (kind : ScalarKind) (length : Nat) :
    '<' ∈ (vectorName kind length).toList := by
  simp [vectorName]

theorem ScalarKind.name_injective {kind other : ScalarKind} (h : kind.name = other.name) : kind = other := by
  cases kind <;> cases other <;> first | rfl | exact absurd h (by decide)

/-- The bracket of the name stands between the length and the scalar. -/
theorem vectorName_injective {kind other : ScalarKind} {length count : Nat}
    (h : vectorName kind length = vectorName other count) : kind = other ∧ length = count := by
  have digits : ∀ n : Nat, '<' ∉ n.repr.toList := fun n hn => by
    rw [Nat.toList_repr] at hn
    exact absurd (Nat.isDigit_of_mem_toDigits (by decide) (by decide) hn) (by decide)
  have scalar : '<' ∉ kind.name.toList ++ ['>'] := by cases kind <;> decide
  have chars : length.repr.toList ++ '<' :: (kind.name.toList ++ ['>']) =
      count.repr.toList ++ '<' :: (other.name.toList ++ ['>']) := by
    simpa [vectorName, String.toList_append] using congrArg String.toList h
  obtain ⟨hlength, -, hname⟩ := (List.append_cons_inj_of_notMem (digits length) scalar).1 chars
  exact ⟨ScalarKind.name_injective (String.toList_inj.1 (List.append_cancel_right hname)),
    Nat.repr_injective (String.toList_inj.1 hlength)⟩

/-- The rules give the value, and all that they note is among the names. -/
def Noted.Settles {α : Type} (r : Noted α) (a : α) (names : List String) : Prop :=
  ∃ notes, r = .ok (a, notes) ∧ notes ⊆ names

theorem Noted.Settles.mono {α : Type} {r : Noted α} {a : α} {names more : List String}
    (h : r.Settles a names) (hsub : names ⊆ more) : r.Settles a more := by
  obtain ⟨notes, hr, hnotes⟩ := h
  exact ⟨notes, hr, List.Subset.trans hnotes hsub⟩

namespace Layouts

/-- The declarations are those of `decls`, and everything remembered is what the rules give. -/
structure Follows (decls : Layouts) (nodes : List Node) (l : Layouts) : Prop where
  structs : l.structs = decls.structs
  aliases : l.aliases = decls.aliases
  constants : l.constants = decls.constants
  byNode : ∀ t info, Node.type t ∈ nodes → l.byNode.lookup t.id = some info →
    (Rules.typeInfo .words decls t).Settles info l.oversized
  byStruct : ∀ name info, l.byStruct.find? name = some info →
    (Rules.structInfo .words decls name).Settles (some info) l.oversized
  plain : ∀ name info, l.byName.find? name = some info → '<' ∉ name.toList → info = .ofName name
  vectors : ∀ kind length info, l.byName.find? (vectorName kind length) = some info →
    (Rules.vector .words decls kind length).Settles info l.oversized

/-- Whether a question is about types of the program: a type node, or an identifier. -/
def Query.AskedOf (nodes : List Node) : Query → Prop
  | .type t => Node.type t ∈ nodes
  | .named name => '<' ∉ name.toList
  | .struct _ | .vector _ _ => True

/-- A computation that notes some names and leaves a memory that follows the rules. -/
structure Ends (decls : Layouts) (nodes : List Node) (l : Layouts) (notes : List String) (l' : Layouts) :
    Prop where
  follows : decls.Follows nodes l'
  inProgress : l'.inProgress = l.inProgress
  oversized : ∀ name, name ∈ l'.oversized ↔ name ∈ l.oversized ∨ name ∈ notes

variable {decls l l' l'' : Layouts} {nodes : List Node} {notes more : List String}

/-- The memory follows the rules with whatever else noted. -/
theorem Follows.noted (h : decls.Follows nodes l) {oversized : List String} (live : List StructKey)
    (hsub : l.oversized ⊆ oversized) : decls.Follows nodes { l with oversized, live } :=
  ⟨h.structs, h.aliases, h.constants, fun t info ht hinfo => (h.byNode t info ht hinfo).mono hsub,
    fun name info hinfo => (h.byStruct name info hinfo).mono hsub, h.plain,
    fun kind length info hinfo => (h.vectors kind length info hinfo).mono hsub⟩

theorem Follows.inProgress (h : decls.Follows nodes l) (inProgress : List String) :
    decls.Follows nodes { l with inProgress } :=
  ⟨h.structs, h.aliases, h.constants, h.byNode, h.byStruct, h.plain, h.vectors⟩

theorem Follows.rememberStruct (h : decls.Follows nodes l) {name : String} {info : TypeInfo}
    (hinfo : (Rules.structInfo .words decls name).Settles (some info) l.oversized) :
    decls.Follows nodes { l with byStruct := l.byStruct.insert name info } := by
  refine { h with byStruct := fun other known hknown => ?_ }
  obtain ⟨rfl, rfl⟩ | hknown := Table.find?_insert_eq hknown
  · exact hinfo
  · exact h.byStruct other known hknown

theorem Follows.rememberName (h : decls.Follows nodes l) {name : String} (hname : '<' ∉ name.toList) :
    decls.Follows nodes { l with byName := l.byName.insert name (.ofName name) } := by
  refine { h with plain := fun other info hinfo _ => ?_, vectors := fun kind length info hinfo => ?_ }
  · obtain ⟨rfl, rfl⟩ | hinfo := Table.find?_insert_eq hinfo
    · rfl
    · exact h.plain other info hinfo ‹_›
  · obtain ⟨rfl, -⟩ | hinfo := Table.find?_insert_eq hinfo
    · exact absurd (bracket_mem_vectorName kind length) hname
    · exact h.vectors kind length info hinfo

theorem Follows.rememberVector (h : decls.Follows nodes l) {kind : ScalarKind} {length : Nat} {info : TypeInfo}
    (hinfo : (Rules.vector .words decls kind length).Settles info l.oversized) :
    decls.Follows nodes { l with byName := l.byName.insert (vectorName kind length) info } := by
  refine { h with plain := fun other known hknown hother => ?_, vectors := fun other count known hknown => ?_ }
  · obtain ⟨rfl, -⟩ | hknown := Table.find?_insert_eq hknown
    · exact absurd (bracket_mem_vectorName kind length) hother
    · exact h.plain other known hknown hother
  · obtain ⟨hname, rfl⟩ | hknown := Table.find?_insert_eq hknown
    · obtain ⟨rfl, rfl⟩ := vectorName_injective hname
      exact hinfo
    · exact h.vectors other count known hknown

theorem Follows.ends (h : decls.Follows nodes l) : decls.Ends nodes l [] l :=
  ⟨h, rfl, fun name => by simp⟩

theorem Ends.trans (h : decls.Ends nodes l notes l') (h' : decls.Ends nodes l' more l'') :
    decls.Ends nodes l (notes ++ more) l'' :=
  ⟨h'.follows, h'.inProgress.trans h.inProgress, fun name => by
    rw [h'.oversized, h.oversized, List.mem_append, or_assoc]⟩

/-- What has just been computed has been noted. -/
theorem Ends.subset (h : decls.Ends nodes l notes l') : notes ⊆ l'.oversized :=
  fun name hname => (h.oversized name).2 (Or.inr hname)

/-- What the rules note for a remembered value has been noted before. -/
theorem Follows.recalled (h : decls.Follows nodes l) (hsub : notes ⊆ l.oversized) :
    decls.Ends nodes l notes l :=
  ⟨h, rfl, fun name => ⟨Or.inl, fun hname => hname.elim id (@hsub name)⟩⟩

end Layouts

namespace LayoutM

variable {α β : Type} {decls l : Layouts} {nodes : List Node} {rank : String → Nat} {k : Nat}

/-- With every memory that follows the rules, and as long as only structures of rank `k` or more are
being laid out, the computation gives what the rules give. -/
def Denotes (decls : Layouts) (nodes : List Node) (rank : String → Nat) (k : Nat) (x : LayoutM α)
    (r : Noted α) : Prop :=
  ∀ l, decls.Follows nodes l → (∀ name ∈ l.inProgress, k ≤ rank name) →
    (∃ e, x.run l = .error e ∧ r = .error e) ∨
    ∃ a notes l', x.run l = .ok (a, l') ∧ r = .ok (a, notes) ∧ decls.Ends nodes l notes l'

/-! ## Parts -/

theorem denotes_of_run {x : LayoutM α} {a : α}
    (h : ∀ l, decls.Follows nodes l → ∃ l', x.run l = .ok (a, l') ∧ decls.Ends nodes l [] l') :
    Denotes decls nodes rank k x (pure a) := by
  intro l hl _
  obtain ⟨l', hrun, hends⟩ := h l hl
  exact Or.inr ⟨a, [], l', hrun, rfl, hends⟩

theorem denotes_pure (a : α) : Denotes decls nodes rank k (pure a) (pure a) :=
  denotes_of_run fun l hl => ⟨l, rfl, hl.ends⟩

/-- The rest is only asked about what the rules can give. -/
theorem Denotes.bind_ok {x : LayoutM α} {r : Noted α} {f : α → LayoutM β} {g : α → Noted β}
    (hx : Denotes decls nodes rank k x r)
    (hf : ∀ a notes, r = .ok (a, notes) → Denotes decls nodes rank k (f a) (g a)) :
    Denotes decls nodes rank k (x >>= f) (r >>= g) := by
  intro l hl hk
  obtain ⟨e, hrun, hr⟩ | ⟨a, notes, l₁, hrun, hr, hends⟩ := hx l hl hk
  · exact Or.inl ⟨e, run_bind_error hrun, Noted.bind_error hr⟩
  rw [run_bind_ok hrun, Noted.bind_eq hr]
  obtain ⟨e, hrun', hg⟩ | ⟨b, more, l₂, hrun', hg, hends'⟩ :=
    hf a notes hr l₁ hends.follows (hends.inProgress ▸ hk)
  · exact Or.inl ⟨e, hrun', by rw [hg]; rfl⟩
  · exact Or.inr ⟨b, notes ++ more, l₂, hrun', by rw [hg]; rfl, hends.trans hends'⟩

theorem Denotes.bind {x : LayoutM α} {r : Noted α} {f : α → LayoutM β} {g : α → Noted β}
    (hx : Denotes decls nodes rank k x r) (hf : ∀ a, Denotes decls nodes rank k (f a) (g a)) :
    Denotes decls nodes rank k (x >>= f) (r >>= g) :=
  hx.bind_ok fun a _ _ => hf a

/-- What holds while structures of lower rank are laid out holds while only higher ones are. -/
theorem Denotes.mono {x : LayoutM α} {r : Noted α} {j : Nat} (h : Denotes decls nodes rank j x r)
    (hjk : j ≤ k) : Denotes decls nodes rank k x r :=
  fun l hl hk => h l hl fun name hname => Nat.le_trans hjk (hk name hname)

theorem denotes_attributeNumber? (attributes : List Attribute) (name : String) :
    Denotes decls nodes rank k (attributeNumber? attributes name)
      (Rules.attributeNumber? decls attributes name) := by
  unfold attributeNumber? Rules.attributeNumber?
  cases (Attribute.find? attributes name).bind fun a => a.args.head? with
  | none => exact denotes_pure none
  | some arg =>
    intro l hl _
    dsimp only
    rw [run_get, hl.constants]
    cases hfold : Expr.foldUInt32 decls.constants arg with
    | error e => exact Or.inl ⟨e, rfl, rfl⟩
    | ok n => exact Or.inr ⟨n.map UInt32.toNat, [], l, rfl, rfl, hl.ends⟩

theorem denotes_sizeOr (name : String) (size : Option Nat) :
    Denotes decls nodes rank k (sizeOr name size) (Rules.sizeOr name size) := by
  cases size with
  | some n => exact denotes_pure n
  | none =>
    intro l hl _
    refine Or.inr ⟨saturatedSize, [name], _, rfl, rfl, ?_⟩
    dsimp only
    split
    · rename_i hknown
      exact hl.recalled fun other ho => by
        cases List.mem_singleton.1 ho
        exact List.contains_iff_mem.1 hknown
    · exact ⟨hl.noted l.live (List.subset_append_left _ _), rfl, fun _ => List.mem_append⟩

theorem denotes_sizedArray (text : String) (attributes : List Attribute) (element : TypeInfo)
    (count : Option Nat) (stride : Nat) : Denotes decls nodes rank k (do
      let size ← match count with
        | some n => sizeOr text (checkedSize (n * stride))
        | none => pure 0
      return TypeInfo.mk text attributes size element.align (.array element count stride)) (do
      let size ← match count with
        | some n => Rules.sizeOr text (Arithmetic.words.fit (n * stride))
        | none => pure 0
      return TypeInfo.mk text attributes size element.align (.array element count stride)) := by
  cases count with
  | none => exact (denotes_pure 0).bind fun size => denotes_pure _
  | some n => exact (denotes_sizeOr text _).bind fun size => denotes_pure _

theorem denotes_arrayInfo (text : String) (attributes : List Attribute) (element : TypeInfo)
    (count : Option Nat) : Denotes decls nodes rank k (arrayInfo text attributes element count)
      (Rules.arrayInfo .words decls text attributes element count) := by
  refine (denotes_attributeNumber? attributes "stride").bind fun stride? => ?_
  cases stride? with
  | some stride => exact (denotes_pure stride).bind (denotes_sizedArray text attributes element count)
  | none => exact (denotes_sizeOr text _).bind (denotes_sizedArray text attributes element count)

theorem denotes_annotatedInfo (id : NodeId) (attributes : List Attribute) (shared : TypeInfo) :
    Denotes decls nodes rank k (annotatedInfo id attributes shared)
      (pure (Rules.annotatedInfo id attributes shared)) := by
  obtain ⟨name, own, size, align, shape⟩ := shared
  cases shape with
  | struct key members startLine endLine =>
    refine denotes_of_run fun l hl => ⟨_, rfl, ?_⟩
    dsimp only
    split
    · exact ⟨hl.noted _ (List.Subset.refl _), rfl, fun name => by simp⟩
    · exact hl.ends
  | _ => exact denotes_pure _

/-! ## Types -/

/-- The element of an array or the component of a vector or matrix. -/
def componentOf (named : String → LayoutM TypeInfo) : Option TypeExpr → LayoutM TypeInfo
  | none => scalarOf named .f32
  | some t => typeInfoOf named t

/-- What a settled parameter stands for. -/
def componentOr (named : String → LayoutM TypeInfo) : Option TypeInfo → LayoutM TypeInfo
  | some t => pure t
  | none => scalarOf named .f32

/-- A settled parameter, or what stands for it, is the component. -/
theorem componentOr_eq (named : String → LayoutM TypeInfo) (t? : Option TypeExpr)
    (f : TypeInfo → LayoutM β) :
    (paramInfoOf named t? >>= fun t'? => componentOr named t'? >>= f) = componentOf named t? >>= f := by
  cases t? with
  | none => rw [paramInfoOf, pure_bind]; rfl
  | some t =>
    rw [paramInfoOf, bind_assoc]
    simp only [pure_bind, componentOr]
    rfl

section

variable {named : String → LayoutM TypeInfo} {D : String → Noted TypeInfo}

theorem denotes_template {text base : String} {attributes : List Attribute} {param : Option TypeExpr}
    {access space : Option String}
    (hc : hasComponents base = true →
      Denotes decls nodes rank k (componentOf named param) (Rules.componentOf .words decls D param))
    (hp : hasComponents base = false →
      Denotes decls nodes rank k (paramInfoOf named param) (Rules.paramInfoOf .words decls D param)) :
    Denotes decls nodes rank k (do
        let param' ← paramInfoOf named param
        templateInfo named text base attributes param' access space)
      (Rules.templateInfo .words text base attributes (Rules.componentOf .words decls D param)
        (Rules.paramInfoOf .words decls D param) access space) := by
  unfold templateInfo Rules.templateInfo
  cases hv : vectorLength? base with
  | some length =>
    change Denotes decls nodes rank k (paramInfoOf named param >>= fun param' =>
      componentOr named param' >>= fun info =>
        pure (renamed (vectorInfo base length info) text attributes)) _
    rw [componentOr_eq]
    exact (hc (by rw [hasComponents, hv]; rfl)).bind fun info => denotes_pure _
  | none =>
    cases hm : matrixShape? base with
    | some shape =>
      obtain ⟨columns, rows⟩ := shape
      change Denotes decls nodes rank k (paramInfoOf named param >>= fun param' =>
        componentOr named param' >>= fun info =>
          pure (Rules.matrixInfo .words text base attributes columns rows info access space)) _
      rw [componentOr_eq]
      exact (hc (by rw [hasComponents, hm, Option.isSome_some, Bool.or_true])).bind fun info =>
        denotes_pure _
    | none => exact (hp (by rw [hasComponents, hv, hm]; rfl)).bind fun param' => denotes_pure _

/-- What is remembered for a node is what the rules give, and what is not is laid out by them. -/
theorem denotes_remembering (hapart : TypesApart nodes) {t : TypeExpr} (ht : Node.type t ∈ nodes)
    {x : LayoutM TypeInfo} (h : Denotes decls nodes rank k x (Rules.typeInfo .words decls t)) :
    Denotes decls nodes rank k (remembering t.id x) (Rules.typeInfo .words decls t) := by
  intro l hl hk
  cases hknown : l.byNode.lookup t.id with
  | some info =>
    obtain ⟨notes, hr, hnotes⟩ := hl.byNode t info ht hknown
    refine Or.inr ⟨info, notes, l, ?_, hr, hl.recalled hnotes⟩
    rw [remembering, run_get, hknown]
    rfl
  | none =>
    rw [run_remembering hknown]
    obtain ⟨e, hrun, hr⟩ | ⟨info, notes, l₁, hrun, hr, hends⟩ := h l hl hk
    · exact Or.inl ⟨e, run_bind_error hrun, hr⟩
    rw [run_bind_ok hrun]
    refine Or.inr ⟨info, notes, _, rfl, hr, ⟨{ hends.follows with byNode := fun u known hu hid => ?_ },
      hends.inProgress, hends.oversized⟩⟩
    by_cases he : u.id = t.id
    · obtain rfl := hapart u t hu ht he
      rw [List.lookup_cons, beq_self_eq_true] at hid
      cases hid
      exact ⟨notes, hr, hends.subset⟩
    · rw [List.lookup_cons, beq_false_of_ne he] at hid
      exact hends.follows.byNode u known hu hid

mutual

/-- By induction on the type: the parameters are laid out by the rules, and so are the names. -/
theorem denotes_typeInfoOf (hapart : TypesApart nodes) : ∀ t : TypeExpr, t.nodes ⊆ nodes →
    (∀ name ∈ t.lookups, Denotes decls nodes rank k (named name) (Rules.named .words decls name)) →
    Denotes decls nodes rank k (typeInfoOf named t) (Rules.typeInfo .words decls t)
  | .named id attributes name, ht, hn => by
    rw [typeInfoOf_eq]
    refine denotes_remembering hapart (ht (TypeExpr.mem_nodes _)) ?_
    refine (hn name List.mem_cons_self).bind fun shared => ?_
    cases attributes with
    | nil => exact denotes_pure shared
    | cons a attributes => exact denotes_annotatedInfo id (a :: attributes) shared
  | .array id attributes element count countExpr, ht, hn => by
    rw [typeInfoOf_eq]
    refine denotes_remembering hapart (ht (TypeExpr.mem_nodes _)) ?_
    have laid : layOutOf named (.array id attributes element count countExpr) =
        paramInfoOf named element >>= fun element' => componentOr named element' >>= fun info =>
          arrayInfo (TypeExpr.array id attributes element count countExpr).text attributes info
            (count.map UInt32.toNat) :=
      congrArg (paramInfoOf named element >>= ·) (funext fun element' => by cases element' <;> rfl)
    rw [laid, componentOr_eq]
    exact (denotes_componentOf hapart element (fun n hm => ht (List.mem_cons_of_mem _
      (List.mem_append_left _ (List.mem_append_right _ hm)))) hn).bind fun info =>
        denotes_arrayInfo _ _ _ _
  | .template id attributes base param access space, ht, hn => by
    rw [typeInfoOf_eq]
    refine denotes_remembering hapart (ht (TypeExpr.mem_nodes _)) ?_
    have inside : TypeExpr.paramNodes param ⊆ nodes := fun n hm =>
      ht (List.mem_cons_of_mem _ (List.mem_append_right _ hm))
    refine denotes_template (fun hb => denotes_componentOf hapart param inside fun name hname => hn name ?_)
      (fun hb => denotes_paramInfoOf hapart param inside fun name hname => hn name ?_)
    · rwa [TypeExpr.lookups, if_pos hb]
    · rwa [TypeExpr.lookups, if_neg (Bool.eq_false_iff.1 hb)]

theorem denotes_componentOf (hapart : TypesApart nodes) : ∀ t? : Option TypeExpr, TypeExpr.paramNodes t? ⊆ nodes →
    (∀ name ∈ TypeExpr.componentLookups t?,
      Denotes decls nodes rank k (named name) (Rules.named .words decls name)) →
    Denotes decls nodes rank k (componentOf named t?)
      (Rules.componentOf .words decls (Rules.named .words decls) t?)
  | none, _, hn => hn _ List.mem_cons_self
  | some t, ht, hn => denotes_typeInfoOf hapart t ht hn

theorem denotes_paramInfoOf (hapart : TypesApart nodes) : ∀ t? : Option TypeExpr, TypeExpr.paramNodes t? ⊆ nodes →
    (∀ name ∈ TypeExpr.paramLookups t?,
      Denotes decls nodes rank k (named name) (Rules.named .words decls name)) →
    Denotes decls nodes rank k (paramInfoOf named t?)
      (Rules.paramInfoOf .words decls (Rules.named .words decls) t?)
  | none, _, _ => denotes_pure none
  | some t, ht, hn => (denotes_typeInfoOf hapart t ht hn).bind fun info => denotes_pure (some info)

end

/-! ## Structures -/

theorem denotes_foldlM {f : β → α → LayoutM β} {g : β → α → Noted β} :
    ∀ (items : List α) (init : β), (∀ a ∈ items, ∀ b, Denotes decls nodes rank k (f b a) (g b a)) →
      Denotes decls nodes rank k (items.foldlM f init) (items.foldlM g init) := by
  intro items
  induction items with
  | nil => exact fun init _ => denotes_pure init
  | cons a items ih =>
    intro init h
    rw [List.foldlM_cons, List.foldlM_cons]
    exact (h a List.mem_cons_self init).bind fun b =>
      ih b fun c hc => h c (List.mem_cons_of_mem a hc)

theorem denotes_structInfoOf (hapart : TypesApart nodes) {decl : StructDecl}
    (ht : ∀ m ∈ decl.members, m.type.nodes ⊆ nodes)
    (hn : ∀ m ∈ decl.members, ∀ name ∈ m.type.lookups,
      Denotes decls nodes rank k (named name) (Rules.named .words decls name)) :
    Denotes decls nodes rank k (structInfoOf named decl)
      (Rules.structInfoOf .words decls (Rules.named .words decls) decl) := by
  unfold structInfoOf Rules.structInfoOf
  refine (denotes_foldlM decl.members ({} : Placement) fun m hm p => ?_).bind fun p => ?_
  · refine (denotes_typeInfoOf hapart m.type (ht m hm) (hn m hm)).bind fun type => ?_
    refine (denotes_attributeNumber? m.attributes "align").bind fun align => ?_
    exact (denotes_attributeNumber? m.attributes "size").bind fun size => denotes_pure _
  · exact (denotes_sizeOr decl.name _).bind fun size => denotes_pure _

/-- The layout of a structure of lower rank than all that are being laid out. -/
theorem denotes_structInfoWith {name : String} (hrank : rank name < k)
    (h : ∀ decl, decls.structs.find? name = some decl →
      Denotes decls nodes rank (rank name) (structInfoOf named decl)
        (Rules.structInfoOf .words decls (Rules.named .words decls) decl)) :
    Denotes decls nodes rank k (structInfoWith named name) (Rules.structInfo .words decls name) := by
  intro l hl hk
  unfold structInfoWith
  rw [run_get]
  cases hknown : l.byStruct.find? name with
  | some info =>
    obtain ⟨notes, hr, hnotes⟩ := hl.byStruct name info hknown
    exact Or.inr ⟨some info, notes, l, rfl, hr, hl.recalled hnotes⟩
  | none =>
    unfold Rules.structInfo
    cases hdecl : l.structs.find? name with
    | none =>
      rw [← hl.structs, hdecl]
      exact Or.inr ⟨none, [], l, rfl, rfl, hl.ends⟩
    | some decl =>
      rw [← hl.structs, hdecl]
      have idle : ¬l.inProgress.contains name := fun hc =>
        Nat.lt_irrefl _ (Nat.lt_of_lt_of_le hrank (hk name (List.contains_iff_mem.1 hc)))
      dsimp only
      rw [if_neg idle, run_bind_ok (x := set _) rfl]
      obtain ⟨e, hrun, hr⟩ | ⟨info, notes, l₁, hrun, hr, hends⟩ := h decl (hl.structs ▸ hdecl)
          { l with inProgress := name :: l.inProgress } (hl.inProgress _) (fun other ho => by
            obtain rfl | ho := List.mem_cons.1 ho
            · exact Nat.le_refl _
            · exact Nat.le_of_lt (Nat.lt_of_lt_of_le hrank (hk other ho)))
      · exact Or.inl ⟨e, run_bind_error hrun, Noted.bind_error hr⟩
      have laid : (do return some (← Rules.structInfoOf .words decls (Rules.named .words decls) decl) :
          Noted (Option TypeInfo)) = .ok (some info, notes) := by
        rw [Noted.bind_eq hr]
        exact congrArg (fun ns => Except.ok (some info, ns)) (List.append_nil notes)
      have settled : (Rules.structInfo .words decls name).Settles (some info) l₁.oversized := by
        refine ⟨notes, ?_, hends.subset⟩
        rwa [Rules.structInfo, ← hl.structs, hdecl]
      rw [run_bind_ok hrun]
      refine Or.inr ⟨some info, notes, _, rfl, laid,
        (hends.follows.rememberStruct settled).inProgress _, ?_, hends.oversized⟩
      change l₁.inProgress.erase name = l.inProgress
      rw [hends.inProgress, List.erase_cons_head]

/-! ## Names -/

/-- A name that no declaration has taken. -/
def otherName (name : String) : LayoutM TypeInfo := do
  match (← get).byName.find? name with
  | some info => return info
  | none =>
    let info := TypeInfo.ofName name
    modify fun l => { l with byName := l.byName.insert name info }
    return info

theorem denotes_otherName {name : String} (hname : '<' ∉ name.toList) :
    Denotes decls nodes rank k (otherName name) (pure (.ofName name)) := by
  refine denotes_of_run fun l hl => ?_
  unfold otherName
  rw [run_get]
  cases hknown : l.byName.find? name with
  | some info =>
    obtain rfl := hl.plain name info hknown hname
    exact ⟨l, rfl, hl.ends⟩
  | none => exact ⟨_, rfl, hl.rememberName hname, rfl, fun other => by simp⟩

end

mutual

/-- What a type asks for is a plain name. -/
theorem plain_lookups (hsound : Sound Names.unbracketed.Holds nodes) : ∀ t : TypeExpr, t.nodes ⊆ nodes →
    ∀ name ∈ t.lookups, '<' ∉ name.toList
  | .named id attributes name, ht, other, ho => by
    obtain rfl := List.mem_singleton.1 ho
    exact (hsound _ (ht (TypeExpr.mem_nodes _))).plain other rfl
  | .array id attributes element count countExpr, ht, name, hname =>
    plain_componentLookups hsound element (fun n hm => ht (List.mem_cons_of_mem _
      (List.mem_append_left _ (List.mem_append_right _ hm)))) name hname
  | .template id attributes base param access space, ht, name, hname => by
    have inside : TypeExpr.paramNodes param ⊆ nodes := fun n hm =>
      ht (List.mem_cons_of_mem _ (List.mem_append_right _ hm))
    rw [TypeExpr.lookups] at hname
    split at hname
    · exact plain_componentLookups hsound param inside name hname
    · exact plain_paramLookups hsound param inside name hname

theorem plain_componentLookups (hsound : Sound Names.unbracketed.Holds nodes) : ∀ t? : Option TypeExpr,
    TypeExpr.paramNodes t? ⊆ nodes → ∀ name ∈ TypeExpr.componentLookups t?, '<' ∉ name.toList
  | none, _, name, hname => by
    obtain rfl := List.mem_singleton.1 hname
    decide
  | some t, ht, name, hname => plain_lookups hsound t ht name hname

theorem plain_paramLookups (hsound : Sound Names.unbracketed.Holds nodes) : ∀ t? : Option TypeExpr,
    TypeExpr.paramNodes t? ⊆ nodes → ∀ name ∈ TypeExpr.paramLookups t?, '<' ∉ name.toList
  | none, _, _, hname => nomatch hname
  | some t, ht, name, hname => plain_lookups hsound t ht name hname

end

/-- The declarations are written with the nodes, and they are ranked. -/
structure Written (decls : Layouts) (nodes : List Node) (rank : String → Nat) : Prop where
  apart : TypesApart nodes
  closed : Closed nodes
  sound : Sound Names.unbracketed.Holds nodes
  members : ∀ name decl, decls.structs.find? name = some decl → ∀ m ∈ decl.members, m.type.nodes ⊆ nodes
  targets : ∀ name target, decls.aliases.find? name = some target → target.nodes ⊆ nodes
  ranked : decls.Ranked rank

theorem run_nesting_of (hl : decls.Follows nodes l) : nesting.run l = .ok (depthOf decls + 1, l) := by
  rw [depthOf, ← hl.structs, ← hl.aliases]
  rfl

/-- The depth that is allowed is enough for every name. -/
theorem denotes_nesting {f : Nat → LayoutM α} {r : Noted α}
    (h : Denotes decls nodes rank k (f (depthOf decls + 1)) r) :
    Denotes decls nodes rank k (nesting >>= f) r := by
  intro l hl hk
  rw [run_bind_ok (run_nesting_of hl)]
  exact h l hl hk

/-- A vector that has not been remembered. -/
def newVector (kind : ScalarKind) (length : Nat) : LayoutM TypeInfo := do
  return vectorInfo ("vec" ++ toString length) length (← LayoutM.named kind.name)

theorem vector_eq (kind : ScalarKind) (length : Nat) : vector kind length = (do
    match (← get).byName.find? (vectorName kind length) with
    | some info => return info
    | none =>
      let info ← newVector kind length
      modify fun l => { l with byName := l.byName.insert (vectorName kind length) info }
      return info) := by
  simp only [newVector, bind_assoc, pure_bind]
  rfl

section

variable (hw : Written decls nodes rank)

include hw

/-- The members of a structure ask for names of lower rank only. -/
theorem denotes_structOf {named : String → LayoutM TypeInfo} {name : String} (hk : rank name < k)
    (hn : ∀ other, '<' ∉ other.toList → decls.Refers name other →
      Denotes decls nodes rank (rank name) (named other) (Rules.named .words decls other)) :
    Denotes decls nodes rank k (structInfoWith named name) (Rules.structInfo .words decls name) := by
  refine denotes_structInfoWith hk fun decl hdecl => ?_
  have inside := hw.members name decl hdecl
  exact denotes_structInfoOf hw.apart inside fun m hm other ho =>
    hn other (plain_lookups hw.sound m.type (inside m hm) other ho) (.struct decl m hdecl hm ho)

/-- By induction on the depth: a declaration asks for names of lower rank only. -/
theorem denotes_namedWithin : ∀ (depth : Nat) (name : String) (k : Nat), '<' ∉ name.toList →
    rank name < depth → rank name < k →
      Denotes decls nodes rank k (namedWithin depth name) (Rules.named .words decls name) := by
  intro depth
  induction depth with
  | zero => exact fun name k _ h => absurd h (Nat.not_lt_zero _)
  | succ depth ih =>
    intro name k hname hdepth hk
    have inner : ∀ other, '<' ∉ other.toList → decls.Refers name other →
        Denotes decls nodes rank (rank name) (namedWithin depth other) (Rules.named .words decls other) := by
      intro other hother hrefers
      have lower := hw.ranked.refers name other hrefers
      exact ih other _ hother (by omega) lower
    have struct := denotes_structOf hw hk inner
    rw [Rules.named_eq hw.ranked]
    refine struct.bind_ok fun info? notes hinfo => ?_
    cases info? with
    | some info => exact denotes_pure info
    | none =>
      have undeclared := Rules.find?_of_structInfo_none hinfo
      intro l hl hk'
      dsimp only
      rw [run_get, hl.aliases]
      cases htarget : decls.aliases.find? name with
      | some target =>
        have inside := hw.targets name target htarget
        refine denotes_typeInfoOf hw.apart target inside (fun other ho => ?_) l hl hk'
        exact (inner other (plain_lookups hw.sound target inside other ho)
          (.alias_ target undeclared htarget ho)).mono (Nat.le_of_lt hk)
      | none => exact denotes_otherName hname l hl hk'

theorem denotes_named {name : String} (hname : '<' ∉ name.toList) :
    Denotes decls nodes rank (depthOf decls) (LayoutM.named name) (Rules.named .words decls name) :=
  denotes_nesting (denotes_namedWithin hw _ name _ hname (Nat.lt_succ_of_lt (hw.ranked.bound name))
    (hw.ranked.bound name))

theorem denotes_typeInfo {t : TypeExpr} (ht : t.nodes ⊆ nodes) :
    Denotes decls nodes rank (depthOf decls) (typeInfo t) (Rules.typeInfo .words decls t) :=
  denotes_nesting (denotes_typeInfoOf hw.apart t ht fun name hname =>
    denotes_namedWithin hw _ name _ (plain_lookups hw.sound t ht name hname)
      (Nat.lt_succ_of_lt (hw.ranked.bound name)) (hw.ranked.bound name))

theorem denotes_structInfo (name : String) :
    Denotes decls nodes rank (depthOf decls) (structInfo name) (Rules.structInfo .words decls name) := by
  refine denotes_nesting (denotes_structOf hw (hw.ranked.bound name) fun other hother hrefers => ?_)
  have lower := hw.ranked.refers name other hrefers
  exact denotes_namedWithin hw _ other _ hother (Nat.lt_succ_of_lt (hw.ranked.bound other)) lower

theorem denotes_newVector (kind : ScalarKind) (length : Nat) :
    Denotes decls nodes rank (depthOf decls) (newVector kind length) (Rules.vector .words decls kind length) :=
  (denotes_named hw (by cases kind <;> decide)).bind fun info => denotes_pure _

theorem denotes_vector (kind : ScalarKind) (length : Nat) :
    Denotes decls nodes rank (depthOf decls) (vector kind length) (Rules.vector .words decls kind length) := by
  intro l hl hk
  rw [vector_eq, run_get]
  cases hknown : l.byName.find? (vectorName kind length) with
  | some info =>
    obtain ⟨notes, hr, hnotes⟩ := hl.vectors kind length info hknown
    exact Or.inr ⟨info, notes, l, rfl, hr, hl.recalled hnotes⟩
  | none =>
    dsimp only
    obtain ⟨e, hrun, hr⟩ | ⟨info, notes, l₁, hrun, hr, hends⟩ := denotes_newVector hw kind length l hl hk
    · exact Or.inl ⟨e, run_bind_error hrun, hr⟩
    rw [run_bind_ok hrun]
    exact Or.inr ⟨info, notes, _, rfl, hr,
      ⟨hends.follows.rememberVector ⟨notes, hr, hends.subset⟩, hends.inProgress, hends.oversized⟩⟩

theorem denotes_answer {q : Layouts.Query} (hq : q.AskedOf nodes) :
    Denotes decls nodes rank (depthOf decls) q.answer (Rules.answer .words decls q) := by
  cases q with
  | type t => exact (denotes_typeInfo hw (hw.closed _ hq)).bind fun info => denotes_pure (some info)
  | struct name => exact denotes_structInfo hw name
  | named name => exact (denotes_named hw hq).bind fun info => denotes_pure (some info)
  | vector kind length => exact (denotes_vector hw kind length).bind fun info => denotes_pure (some info)

theorem denotes_answers {queries : List Layouts.Query} (hq : ∀ q ∈ queries, q.AskedOf nodes) :
    Denotes decls nodes rank (depthOf decls) (Layouts.answers queries)
      (queries.mapM (Rules.answer .words decls)) := by
  unfold Layouts.answers
  induction queries with
  | nil => exact denotes_pure []
  | cons q queries ih =>
    rw [List.mapM_cons, List.mapM_cons]
    refine (denotes_answer hw (hq q List.mem_cons_self)).bind fun found => ?_
    exact (ih fun other ho => hq other (List.mem_cons_of_mem q ho)).bind fun rest => denotes_pure _

end

/-- A computation gives the same value as the rules, or fails like them. -/
theorem Denotes.value {x : LayoutM α} {r : Noted α} (h : Denotes decls nodes rank k x r)
    (hl : decls.Follows nodes l) (hidle : l.inProgress = []) : Prod.fst <$> x.run l = r.value := by
  obtain ⟨e, hrun, hr⟩ | ⟨a, notes, l₁, hrun, hr, -⟩ := h l hl fun name hname => by
    rw [hidle] at hname
    cases hname
  all_goals rw [hrun, hr]; rfl

end LayoutM

namespace Layouts

/-! ## The declarations of a program -/

variable {source : String} {p : Program}

theorem written_ofSource (h : Program.ofSource source = .ok p) {rank : String → Nat}
    (hr : (ofProgram p).Ranked rank) : LayoutM.Written (ofProgram p) p.nodes rank := by
  have declared := declares_ofProgram p
  refine ⟨LayoutM.typesApart_ofSource h, p.closed, (Program.numbered_ofSource h).2,
    fun name decl hdecl m hm n hn => ?_, fun name target htarget n hn => ?_, hr⟩
  · exact Program.nodes_subset_of_member (declared.structs name decl hdecl).1 hm hn
  · obtain ⟨a, ha, -, rfl⟩ := declared.aliases name target htarget
    exact Program.nodes_subset_of_alias ha hn

/-- Nothing has been remembered yet. -/
theorem follows_ofProgram (p : Program) (nodes : List Node) :
    (ofProgram p).Follows nodes (ofProgram p) := by
  obtain ⟨byNode, byStruct, byName, -⟩ := empty_ofProgram p
  refine ⟨rfl, rfl, rfl, fun t info _ h => ?_, fun name info h => ?_, fun name info h => ?_,
    fun kind length info h => ?_⟩
  · rw [byNode] at h
    cases h
  · rw [byStruct] at h
    cases h
  · rw [byName] at h
    cases h
  · rw [byName] at h
    cases h

/-- Whatever is asked of the layouts of a parsed program, and in whatever order, each question is
answered as if nothing had been asked before. -/
theorem answers_transparent (h : Program.ofSource source = .ok p) (hacyclic : (ofProgram p).Acyclic)
    {queries : List Query} (hq : ∀ q ∈ queries, q.AskedOf p.nodes) :
    Prod.fst <$> (answers queries).run (ofProgram p) =
      queries.mapM fun q => Prod.fst <$> q.answer.run (ofProgram p) := by
  obtain ⟨rank, hr⟩ := hacyclic.ranked
  have hw := written_ofSource h hr
  have follows := follows_ofProgram p p.nodes
  have idle := (declares_ofProgram p).inProgress
  rw [(LayoutM.denotes_answers hw hq).value follows idle]
  exact Noted.value_mapM queries fun q hmem =>
    ((LayoutM.denotes_answer hw (hq q hmem)).value follows idle).symm

/-- A structure in an array in a structure behind an alias. -/
def layeredSource : String :=
  "struct A \x7b x: f32 \x7d struct B \x7b y: array<A, 2> \x7d alias C = B;"

/-- The names by how many declarations they stand on. -/
def layeredRank (name : String) : Nat :=
  if name = "C" then 3 else if name = "B" then 2 else if name = "A" then 1 else 0

/-- The alias twice, and in between a member's type, a structure and a vector. -/
def layeredQueries (t : TypeExpr) : List Query :=
  [.named "C", .type t, .struct "A", .vector .f32 3, .named "C"]

theorem answers_transparent_layered : ∃ p s m, Program.ofSource layeredSource = .ok p ∧
    (ofProgram p).Acyclic ∧ s ∈ p.structs ∧ m ∈ s.members ∧
    Prod.fst <$> (answers (layeredQueries m.type)).run (ofProgram p) =
      (layeredQueries m.type).mapM fun q => Prod.fst <$> q.answer.run (ofProgram p) := by
  have parsed : ((Program.ofSource layeredSource).toOption.map fun p =>
      (ofProgram p).ordered layeredRank && p.structs.any fun s => s.members.any fun _ => true) =
        some true := by
    decide +kernel
  obtain ⟨p, hp, checked⟩ := Option.map_eq_some_iff.1 parsed
  obtain ⟨hordered, hmembers⟩ := Bool.and_eq_true_iff.1 checked
  obtain ⟨s, hs, hm⟩ := List.any_eq_true.1 hmembers
  obtain ⟨m, hm, -⟩ := List.any_eq_true.1 hm
  have hsource : Program.ofSource layeredSource = .ok p := by
    cases hr : Program.ofSource layeredSource with
    | error e =>
      rw [hr] at hp
      cases hp
    | ok q =>
      rw [hr] at hp
      cases hp
      rfl
  have inside : Node.type m.type ∈ p.nodes :=
    Program.nodes_subset_of_struct hs (List.mem_append_left _ (List.mem_flatMap.2
      ⟨m, hm, List.mem_append_left _ (TypeExpr.mem_nodes m.type)⟩))
  have hacyclic := acyclic_of_ordered hordered
  refine ⟨p, s, m, hsource, hacyclic, hs, hm, answers_transparent hsource hacyclic fun q hq => ?_⟩
  simp only [layeredQueries, List.mem_cons, List.not_mem_nil, or_false] at hq
  obtain rfl | rfl | rfl | rfl | rfl := hq
  · exact show '<' ∉ "C".toList by decide
  · exact inside
  · trivial
  · trivial
  · exact show '<' ∉ "C".toList by decide

end Layouts

end Wgsl
