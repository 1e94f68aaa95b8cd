import Wgsl.Proofs.Layout.Settled
import Wgsl.Proofs.Parse.Program

/-! # Layouts with different histories

Once all names are settled, laying out a type gives the same, whatever has been laid out before. This
needs the nodes of the program to have numbers of their own, since what has been laid out is
remembered by number.

* `Layouts.Coherent`: what has been remembered beyond the settled layouts is what they would give.
* `LayoutM.Agrees`: two coherent memories make no difference.
* `LayoutM.agrees_typeInfo`, `LayoutM.agrees_structInfo`: laying out agrees.
-/

namespace Wgsl
set_option autoImplicit false

/-- The layout of a name that no declaration has taken. -/
def TypeInfo.ofName (name : String) : TypeInfo :=
  ((ScalarKind.ofName? name).map TypeInfo.scalar).getD (.handle name)

namespace Layouts

/-- The layout of a name, read off what is settled. -/
def nameInfo (l : Layouts) (name : String) : TypeInfo :=
  match l.byStruct.find? name with
  | some info => info
  | none =>
    match l.aliases.find? name with
    | some target => (l.byNode.lookup target.id).getD default
    | none => (l.byName.find? name).getD (.ofName name)

/-- The layouts may have answered more questions than the settled ones, but no differently. -/
structure Coherent (settled : Layouts) (nodes : List Node) (l : Layouts) : Prop where
  structs : l.structs = settled.structs
  aliases : l.aliases = settled.aliases
  constants : l.constants = settled.constants
  byStruct : l.byStruct = settled.byStruct
  byName : ∀ name, (l.byName.find? name).getD (.ofName name) =
    (settled.byName.find? name).getD (.ofName name)
  kept : ∀ id info, settled.byNode.lookup id = some info → l.byNode.lookup id = some info
  answers : ∀ t info, Node.type t ∈ nodes → l.byNode.lookup t.id = some info →
    ∃ l', (LayoutM.typeInfo t).run settled = .ok (info, l')

variable {settled l : Layouts} {nodes : List Node}

/-- Noting a type as too large or in use changes no answer. -/
theorem Coherent.note (h : settled.Coherent nodes l) (oversized : List String)
    (live : List StructKey) : settled.Coherent nodes { l with oversized, live } :=
  ⟨h.structs, h.aliases, h.constants, h.byStruct, h.byName, h.kept, h.answers⟩

theorem Coherent.rememberName (h : settled.Coherent nodes l) {name : String}
    (hn : l.byName.find? name = none) :
    settled.Coherent nodes { l with byName := l.byName.insert name (.ofName name) } := by
  refine { h with byName := fun other => ?_ }
  by_cases he : other = name
  · subst he
    have before := h.byName other
    rw [hn, Option.getD_none] at before
    rw [Table.find?_insert_self, Option.getD_some]
    exact before
  · rw [Table.find?_insert_of_ne _ _ he]
    exact h.byName other

end Layouts

namespace LayoutM

variable {settled l : Layouts} {nodes : List Node} {α β : Type}

/-- With either memory the computation ends alike, and both memories stay coherent. -/
def Agrees (settled : Layouts) (nodes : List Node) (x : LayoutM α) : Prop :=
  ∀ l l', settled.Coherent nodes l → settled.Coherent nodes l' →
    (∃ f, x.run l = .error f ∧ x.run l' = .error f) ∨
    ∃ a l₁ l₁', x.run l = .ok (a, l₁) ∧ x.run l' = .ok (a, l₁') ∧
      settled.Coherent nodes l₁ ∧ settled.Coherent nodes l₁'

/-- A computation that always gives the same agrees. -/
theorem agrees_of_run {x : LayoutM α} {a : α}
    (h : ∀ l, settled.Coherent nodes l → ∃ l₁, x.run l = .ok (a, l₁) ∧ settled.Coherent nodes l₁) :
    Agrees settled nodes x := by
  intro l l' hl hl'
  obtain ⟨l₁, h₁, hl₁⟩ := h l hl
  obtain ⟨l₁', h₁', hl₁'⟩ := h l' hl'
  exact Or.inr ⟨a, l₁, l₁', h₁, h₁', hl₁, hl₁'⟩

theorem run_bind_error {x : LayoutM α} {f : α → LayoutM β} {e : Fault} (h : x.run l = .error e) :
    (x >>= f).run l = .error e := by
  rw [StateT.run_bind, h]
  rfl

theorem run_bind_ok {x : LayoutM α} {f : α → LayoutM β} {a : α} {l₁ : Layouts}
    (h : x.run l = .ok (a, l₁)) : (x >>= f).run l = (f a).run l₁ := by
  rw [StateT.run_bind, h]
  rfl

theorem run_get (f : Layouts → LayoutM β) : (get >>= f).run l = (f l).run l := rfl

theorem agrees_bind {x : LayoutM α} {f : α → LayoutM β} (hx : Agrees settled nodes x)
    (hf : ∀ a, Agrees settled nodes (f a)) : Agrees settled nodes (x >>= f) := by
  intro l l' hl hl'
  obtain ⟨e, h, h'⟩ | ⟨a, l₁, l₁', h, h', hl₁, hl₁'⟩ := hx l l' hl hl'
  · exact Or.inl ⟨e, run_bind_error h, run_bind_error h'⟩
  · rw [run_bind_ok h, run_bind_ok h']
    exact hf a l₁ l₁' hl₁ hl₁'

/-- What computations on coherent layouts agree on. -/
def agreeing (settled : Layouts) (nodes : List Node) : Laying where
  obeys x := Agrees settled nodes x
  obeys_pure a := agrees_of_run fun l hl => ⟨l, rfl, hl⟩
  obeys_bind := agrees_bind
  obeys_lift r := by
    cases r with
    | error e => exact fun _ _ _ _ => Or.inl ⟨e, rfl, rfl⟩
    | ok a => exact agrees_of_run fun l hl => ⟨l, rfl, hl⟩
  obeys_constants {_ f} h l l' hl hl' := by
    rw [run_get, run_get, hl.constants, hl'.constants]
    exact h settled.constants l l' hl hl'
  obeys_note f hf := agrees_of_run fun l hl => ⟨f l, rfl, by
    rw [(hf l).same]
    exact hl.note _ _⟩

/-! ## Names -/

theorem typeInfoOf_kept {named : String → LayoutM TypeInfo} {t : TypeExpr} {info : TypeInfo}
    (hl : settled.Coherent nodes l) (ht : settled.byNode.lookup t.id = some info) :
    (typeInfoOf named t).run l = .ok (info, l) := by
  rw [typeInfoOf_eq, remembering, run_get, hl.kept _ _ ht]
  rfl

section

variable (hs : settled.Settled)

include hs

theorem structInfoWith_settled {named : String → LayoutM TypeInfo} (name : String)
    (hl : settled.Coherent nodes l) :
    (structInfoWith named name).run l = .ok (settled.byStruct.find? name, l) := by
  unfold structInfoWith
  rw [run_get, hl.byStruct, hl.structs]
  cases hfound : settled.byStruct.find? name with
  | some info => rfl
  | none =>
    cases hdecl : settled.structs.find? name with
    | none => rfl
    | some decl =>
      have laid := hs.structs name decl hdecl
      rw [hfound] at laid
      cases laid

/-- A name needs no laying out. -/
theorem namedWithin_settled (depth : Nat) (name : String) (hl : settled.Coherent nodes l) :
    ∃ l₁, (namedWithin (depth + 1) name).run l = .ok (settled.nameInfo name, l₁) ∧
      settled.Coherent nodes l₁ := by
  rw [namedWithin, run_bind_ok (structInfoWith_settled hs name hl)]
  unfold Layouts.nameInfo
  cases settled.byStruct.find? name with
  | some info => exact ⟨l, rfl, hl⟩
  | none =>
    dsimp only
    rw [run_get, hl.aliases]
    cases htarget : settled.aliases.find? name with
    | some target =>
      obtain ⟨info, hinfo⟩ := Option.isSome_iff_exists.1 (hs.aliases name target htarget)
      refine ⟨l, ?_, hl⟩
      dsimp only
      rw [typeInfoOf_kept hl hinfo, hinfo]
      rfl
    | none =>
      dsimp only
      rw [run_get, ← hl.byName name]
      cases hname : l.byName.find? name with
      | some info => exact ⟨l, rfl, hl⟩
      | none => exact ⟨_, rfl, hl.rememberName hname⟩

theorem agrees_namedWithin (depth : Nat) (name : String) :
    Agrees settled nodes (namedWithin (depth + 1) name) :=
  agrees_of_run fun _ hl => namedWithin_settled hs depth name hl

end

/-! ## Types -/

/-- Nodes of one number are one node. -/
def TypesApart (nodes : List Node) : Prop :=
  ∀ t t', Node.type t ∈ nodes → Node.type t' ∈ nodes → t.id = t'.id → t = t'

/-- The type nodes of a parsed program have numbers of their own. -/
theorem typesApart_ofSource {source : String} {p : Program} (h : Program.ofSource source = .ok p) :
    TypesApart p.nodes := by
  intro t t' ht ht' hid
  have same := List.inj_on_of_nodup_map (Program.numbered_ofSource h).1 ht ht' hid
  cases same
  rfl

/-- How deep names are followed, which is the same with all coherent layouts. -/
def depthOf (settled : Layouts) : Nat := (settled.structs.length + 1) * (settled.aliases.length + 1)

theorem run_nesting (hl : settled.Coherent nodes l) :
    nesting.run l = .ok (depthOf settled + 1, l) := by
  rw [depthOf, ← hl.structs, ← hl.aliases]
  rfl

theorem run_typeInfo (t : TypeExpr) (hl : settled.Coherent nodes l) :
    (typeInfo t).run l = (typeInfoOf (namedWithin (depthOf settled + 1)) t).run l :=
  run_bind_ok (run_nesting hl)

/-- A node that has not been remembered is laid out. -/
theorem run_remembering {id : NodeId} {x : LayoutM TypeInfo} (h : l.byNode.lookup id = none) :
    (remembering id x).run l = (do
      let info ← x
      modify fun l => { l with byNode := (id, info) :: l.byNode }
      return info : LayoutM TypeInfo).run l := by
  rw [remembering, run_get, h]

/-- The settled layouts are coherent with themselves. -/
theorem coherent_self (settled : Layouts) (nodes : List Node) : settled.Coherent nodes settled := by
  refine ⟨rfl, rfl, rfl, rfl, fun _ => rfl, fun _ _ h => h, fun t info _ h => ⟨settled, ?_⟩⟩
  rw [typeInfo, run_bind_ok (x := nesting) rfl, typeInfoOf_eq, remembering, run_get, h]
  rfl

section

variable (hapart : TypesApart nodes)

include hapart in
/-- What is remembered for a node of the program is its layout. -/
theorem coherent_remember {t : TypeExpr} {info : TypeInfo} {l₁ : Layouts}
    (hl : settled.Coherent nodes l) (ht : Node.type t ∈ nodes)
    (hinfo : (typeInfo t).run settled = .ok (info, l₁)) (hnew : settled.byNode.lookup t.id = none) :
    settled.Coherent nodes { l with byNode := (t.id, info) :: l.byNode } := by
  refine { hl with kept := fun id known hid => ?_, answers := fun u known hu hid => ?_ }
  · have other : id ≠ t.id := by
      rintro rfl
      rw [hnew] at hid
      cases hid
    rw [List.lookup_cons, beq_false_of_ne other]
    exact hl.kept id known hid
  · by_cases he : u.id = t.id
    · obtain rfl := hapart u t hu ht he
      rw [List.lookup_cons, beq_self_eq_true] at hid
      cases hid
      exact ⟨l₁, hinfo⟩
    · rw [List.lookup_cons, beq_false_of_ne he] at hid
      exact hl.answers u known hu hid

variable {t : TypeExpr} (ht : Node.type t ∈ nodes) {x : LayoutM TypeInfo}
  (hx : Agrees settled nodes x)

include ht hx

/-- What fails with the settled layouts fails with all coherent ones. -/
theorem remembering_fails {e : Fault} (hasked : (typeInfo t).run settled = .error e)
    (hrun : x.run settled = .error e) (hl : settled.Coherent nodes l) :
    (remembering t.id x).run l = .error e := by
  cases hknown : l.byNode.lookup t.id with
  | some info =>
    obtain ⟨l₁, hinfo⟩ := hl.answers t info ht hknown
    rw [hasked] at hinfo
    cases hinfo
  | none =>
    obtain ⟨e', he, he'⟩ | ⟨_, _, _, he, -⟩ := hx settled l (coherent_self settled nodes) hl
    · rw [hrun] at he
      cases he
      rw [run_remembering hknown, run_bind_error he']
    · rw [hrun] at he
      cases he

include hapart in
/-- What is found with the settled layouts is known to all coherent ones or found again. -/
theorem remembering_finds {info : TypeInfo} {l₀ l₁ : Layouts}
    (hasked : (typeInfo t).run settled = .ok (info, l₁)) (hrun : x.run settled = .ok (info, l₀))
    (hnew : settled.byNode.lookup t.id = none) (hl : settled.Coherent nodes l) :
    ∃ l₂, (remembering t.id x).run l = .ok (info, l₂) ∧ settled.Coherent nodes l₂ := by
  cases hknown : l.byNode.lookup t.id with
  | some found =>
    obtain ⟨l₂, hinfo⟩ := hl.answers t found ht hknown
    rw [hasked] at hinfo
    cases hinfo
    refine ⟨l, ?_, hl⟩
    rw [remembering, run_get, hknown]
    rfl
  | none =>
    obtain ⟨_, he, -⟩ | ⟨found, _, l₂, he, hfound, -, hl₂⟩ :=
      hx settled l (coherent_self settled nodes) hl
    · rw [hrun] at he
      cases he
    · rw [hrun] at he
      cases he
      rw [run_remembering hknown, run_bind_ok hfound]
      exact ⟨_, rfl, coherent_remember hapart hl₂ ht hasked hnew⟩

end

section

variable (hs : settled.Settled) (hapart : TypesApart nodes)

include hapart in
/-- Remembering the layout of a node makes no difference either. -/
theorem agrees_remembering {t : TypeExpr} (ht : Node.type t ∈ nodes)
    (h : Agrees settled nodes (layOutOf (namedWithin (depthOf settled + 1)) t)) :
    Agrees settled nodes
      (remembering t.id (layOutOf (namedWithin (depthOf settled + 1)) t)) := by
  cases hnew : settled.byNode.lookup t.id with
  | some info =>
    refine agrees_of_run (a := info) fun l hl => ⟨l, ?_, hl⟩
    rw [← typeInfoOf_eq]
    exact typeInfoOf_kept hl hnew
  | none =>
    have asked := run_typeInfo t (coherent_self settled nodes)
    rw [typeInfoOf_eq, run_remembering hnew] at asked
    cases hrun : (layOutOf (namedWithin (depthOf settled + 1)) t).run settled with
    | error e =>
      rw [run_bind_error hrun] at asked
      exact fun l l' hl hl' =>
        Or.inl ⟨e, remembering_fails ht h asked hrun hl, remembering_fails ht h asked hrun hl'⟩
    | ok r =>
      rw [run_bind_ok hrun] at asked
      exact agrees_of_run fun l hl => remembering_finds hapart ht h asked hrun hnew hl

include hs hapart

theorem agrees_typeInfo {t : TypeExpr} (ht : ∀ n ∈ t.nodes, n ∈ nodes) :
    Agrees settled nodes (typeInfo t) := by
  have agreed : Agrees settled nodes (typeInfoOf (namedWithin (depthOf settled + 1)) t) := by
    refine Laying.obeys_typeInfoOf (C := agreeing settled nodes)
      (T := fun t => ∀ n ∈ t.nodes, n ∈ nodes) (agrees_namedWithin hs _)
      (fun t param ht hp n hn => ht n ?_) (fun t ht h => ?_) t ht
    · cases t with
      | named => cases hp
      | template =>
        cases hp
        exact List.mem_cons_of_mem _ (List.mem_append_right _ hn)
      | array =>
        cases hp
        exact List.mem_cons_of_mem _ (List.mem_append_left _ (List.mem_append_right _ hn))
    · exact agrees_remembering hapart (ht _ t.mem_nodes) h
  intro l l' hl hl'
  rw [run_typeInfo t hl, run_typeInfo t hl']
  exact agreed l l' hl hl'

omit hapart in
theorem agrees_structInfo (name : String) : Agrees settled nodes (structInfo name) := by
  refine agrees_of_run (a := settled.byStruct.find? name) fun l hl => ⟨l, ?_, hl⟩
  rw [structInfo, run_bind_ok (run_nesting hl), structInfoWith_settled hs name hl]

end

end LayoutM

end Wgsl
