import Wgsl.Proofs.Layout.Marking
import Wgsl.Proofs.Reflect.CallOrder
import Wgsl.Proofs.Reflect.Variables

/-! # Which structures are in use

Reflection takes every structure out of use and then marks, for each function that can run, what its
signature, its body and its resources name. As long as no name of a structure has attributes of its
own, what is marked in the end is what can be reached from these names.

* `LayoutM.Brings`: a computation brings the structures into use that some names stand for.
* `LayoutM.brings_typeInfo`: laying out a type brings nothing into use.
* `Reflection.brings_functionOf`: what one function brings into use.
* `Reflection.isInUse_iff`: the structures in use.
-/

namespace Wgsl
set_option autoImplicit false

/-- The memory follows the declarations while nothing is being laid out, and what the structures in
use are made of is in use. -/
structure Layouts.Steady (decls : Layouts) (nodes : List Node) (l : Layouts) : Prop where
  follows : decls.Follows nodes l
  idle : l.inProgress = []
  closed : StructKey.Closed decls l.live

namespace LayoutM

variable {α β : Type} {decls l l' : Layouts} {nodes : List Node} {names more : Set String}
  {P : α → Prop} {Q : β → Prop}

/-- The computation gives something with the property, and brings into use the structures that the
names stand for. -/
def Brings (decls : Layouts) (nodes : List Node) (names : Set String) (x : LayoutM α) (P : α → Prop) :
    Prop :=
  ∀ l a l', decls.Steady nodes l → x.run l = .ok (a, l') → P a ∧ decls.Steady nodes l' ∧
    ∀ s, .declared s ∈ l'.live ↔ .declared s ∈ l.live ∨ decls.Spans names s

/-! ## Parts -/

theorem brings_pure {a : α} (h : P a) : Brings decls nodes ∅ (pure a) P := by
  intro l b l' hl hrun
  cases hrun
  exact ⟨h, hl, fun s => (or_iff_left Layouts.not_spans_empty).symm⟩

theorem Brings.bind {x : LayoutM α} {f : α → LayoutM β} (hx : Brings decls nodes names x P)
    (hf : ∀ a, P a → Brings decls nodes more (f a) Q) :
    Brings decls nodes (names ∪ more) (x >>= f) Q := by
  intro l b l₂ hl hrun
  obtain ⟨a, l₁, ha, hrun⟩ := bind_ok hrun
  obtain ⟨hp, hl₁, first⟩ := hx l a l₁ hl ha
  obtain ⟨hq, hl₂, second⟩ := hf a hp l₁ b l₂ hl₁ hrun
  refine ⟨hq, hl₂, fun s => ?_⟩
  rw [second, first, Layouts.spans_union, or_assoc]

/-- What is asked first brings nothing into use. -/
theorem Brings.ask {x : LayoutM α} {f : α → LayoutM β} (hx : Brings decls nodes ∅ x P)
    (hf : ∀ a, P a → Brings decls nodes names (f a) Q) : Brings decls nodes names (x >>= f) Q := by
  rw [← Set.empty_union names]
  exact hx.bind hf

/-- What is computed last may bring nothing into use. -/
theorem Brings.done {x : LayoutM α} {b : β} (hx : Brings decls nodes names x P) :
    Brings decls nodes names (x >>= fun _ => pure b) fun _ => True := by
  rw [← Set.union_empty names]
  exact hx.bind fun _ _ => brings_pure trivial

theorem Brings.mono {P' : α → Prop} {x : LayoutM α} (hx : Brings decls nodes names x P)
    (h : ∀ a, P a → P' a) : Brings decls nodes names x P' := by
  intro l a l' hl hrun
  obtain ⟨hp, rest⟩ := hx l a l' hl hrun
  exact ⟨h a hp, rest⟩

/-- Items that are treated one after the other. -/
theorem brings_mapM {f : α → LayoutM β} {brought : α → Set String} {P : α → β → Prop}
    {items : List α} (h : ∀ a ∈ items, Brings decls nodes (brought a) (f a) (P a)) :
    Brings decls nodes {n | ∃ a ∈ items, n ∈ brought a} (items.mapM f) (List.Forall₂ P items) := by
  induction items with
  | nil =>
    have none : {n | ∃ a ∈ ([] : List α), n ∈ brought a} = ∅ := by simp
    rw [none]
    exact brings_pure .nil
  | cons a items ih =>
    have split : {n | ∃ b ∈ a :: items, n ∈ brought b} = brought a ∪ {n | ∃ b ∈ items, n ∈ brought b} := by
      ext n
      simp
    rw [List.mapM_cons, split, ← Set.union_empty {n | ∃ b ∈ items, n ∈ brought b}]
    refine (h a List.mem_cons_self).bind fun b hb => ?_
    refine (ih fun c hc => h c (List.mem_cons_of_mem a hc)).bind fun bs hbs => ?_
    exact brings_pure (.cons hb hbs)

/-- Items that are treated one after the other, each for something that it stands for. -/
theorem brings_forM {f : β → LayoutM PUnit} {brought : α → Set String} {items : List α}
    {others : List β}
    (h : List.Forall₂ (fun a b => Brings decls nodes (brought a) (f b) fun _ => True) items others) :
    Brings decls nodes {n | ∃ a ∈ items, n ∈ brought a} (others.forM f) fun _ => True := by
  induction h with
  | nil =>
    have none : {n | ∃ a ∈ ([] : List α), n ∈ brought a} = ∅ := by simp
    rw [none]
    exact brings_pure trivial
  | @cons a b items others first _ ih =>
    have split : {n | ∃ c ∈ a :: items, n ∈ brought c} = brought a ∪ {n | ∃ c ∈ items, n ∈ brought c} := by
      ext n
      simp
    rw [List.forM_eq_forM, List.forM_cons, split]
    exact first.bind fun _ _ => ih

theorem asks_mapM {f : α → LayoutM β} {P : α → β → Prop} {items : List α}
    (h : ∀ a ∈ items, Brings decls nodes ∅ (f a) (P a)) :
    Brings decls nodes ∅ (items.mapM f) (List.Forall₂ P items) := by
  have none : {n | ∃ a ∈ items, n ∈ (∅ : Set String)} = ∅ := by simp
  exact none ▸ brings_mapM h

/-! ## Questions -/

/-- A question that is answered by the rules brings nothing into use. -/
theorem brings_of_denotes {rank : String → Nat} {x : LayoutM α} {r : Noted α} (hx : Growing x)
    (h : Denotes decls nodes rank (depthOf decls) x r) :
    Brings decls nodes ∅ x fun a => ∃ notes, r = .ok (a, notes) := by
  intro l a l' hl hrun
  obtain ⟨e, herror, -⟩ | ⟨b, notes, l₁, hok, hr, ends⟩ := h l hl.follows (by simp [hl.idle])
  · rw [hrun] at herror
    cases herror
  · rw [hrun] at hok
    cases hok
    obtain ⟨added, hlive, hadded⟩ := (hx l a l' hrun).live
    have same : ∀ s, StructKey.declared s ∈ l'.live ↔ StructKey.declared s ∈ l.live := by
      intro s
      rw [hlive, List.mem_append]
      refine or_iff_right fun hs => ?_
      obtain ⟨id, hid⟩ := hadded _ hs
      cases hid
    refine ⟨⟨notes, hr⟩, ⟨ends.follows, ends.inProgress.trans hl.idle, fun name hname s hs => ?_⟩,
      fun s => ?_⟩
    · rw [same] at hname ⊢
      exact hl.closed name hname s hs
    · rw [same, or_iff_left Layouts.not_spans_empty]

section

variable {rank : String → Nat} (hw : Written decls nodes rank) (hu : decls.Unadorned)

include hw

theorem asks_typeInfo {t : TypeExpr} (ht : t.nodes ⊆ nodes) :
    Brings decls nodes ∅ (typeInfo t) fun _ => True :=
  (brings_of_denotes (growing_typeInfo t) (denotes_typeInfo hw ht)).mono fun _ _ => trivial

theorem asks_structInfo (name : String) : Brings decls nodes ∅ (structInfo name) fun _ => True :=
  (brings_of_denotes (growing_structInfo name) (denotes_structInfo hw name)).mono fun _ _ => trivial

/-- Questions about the types of the program bring nothing into use. -/
def askingQuietly : Reflection.Questioning fun t => t.nodes ⊆ nodes where
  obeys x := Brings decls nodes ∅ x fun _ => True
  obeys_pure _ := brings_pure trivial
  obeys_bind hx hf := hx.ask fun a _ => hf a
  obeys_lift r := by
    cases r with
    | error e => exact fun _ _ _ _ => nofun
    | ok a => exact brings_pure trivial
  obeys_constants h l := h l.constants l
  obeys_typeInfo _ := asks_typeInfo hw
  obeys_structInfo := asks_structInfo hw

include hu

theorem brings_typeInfo {t : TypeExpr} (ht : t.nodes ⊆ nodes) (hplain : t.Unadorned decls) :
    Brings decls nodes ∅ (typeInfo t) fun info => info.Depicts decls {n | n ∈ t.lookups} :=
  (brings_of_denotes (growing_typeInfo t) (denotes_typeInfo hw ht)).mono fun _ ⟨_, h⟩ =>
    Rules.depicts_typeInfo hu hw.ranked hplain h

theorem brings_option {t? : Option TypeExpr} (ht : ∀ t ∈ t?, t.nodes ⊆ nodes)
    (hplain : ∀ t ∈ t?, t.Unadorned decls) : Brings decls nodes ∅ (t?.mapM typeInfo)
      (Option.Rel (fun t info => info.Depicts decls {n | n ∈ t.lookups}) t?) := by
  cases t? with
  | none => exact brings_pure .none
  | some t =>
    exact (brings_typeInfo hw hu (ht t rfl) (hplain t rfl)).ask fun info hinfo => brings_pure (.some hinfo)

theorem brings_structInfo {name : String} (hname : decls.HasStruct name) :
    Brings decls nodes ∅ (structInfo name) fun info? =>
      ∃ info, info? = some info ∧ info.Depicts decls {name} := by
  refine (brings_of_denotes (growing_structInfo name) (denotes_structInfo hw name)).mono ?_
  rintro (_ | info) ⟨_, h⟩
  · rw [Layouts.HasStruct, Rules.find?_of_structInfo_none h] at hname
    cases hname
  · exact ⟨info, rfl, Rules.depicts_structInfo hu hw.ranked h⟩

end

/-- Marking a type brings into use what it is made of. -/
theorem brings_use {t : TypeInfo} (hl : decls.Acyclic) (h : t.Depicts decls names) :
    Brings decls nodes names (Reflection.use t) fun _ => True := by
  intro l a l' hsteady hrun
  cases hrun
  have marked := h.faithful.mem_markInUse hl hsteady.closed
  refine ⟨trivial, ⟨hsteady.follows.noted _ (List.Subset.refl _), hsteady.idle,
    hsteady.closed.union h.faithful.closed marked⟩, fun s => ?_⟩
  refine (marked (.declared s)).trans (or_congr_right ?_)
  rw [h.keys]
  simp [StructKey.Within]

theorem brings_useOption {t? : Option TypeExpr} {info? : Option TypeInfo} (hl : decls.Acyclic)
    (h : Option.Rel (fun t info => info.Depicts decls {n | n ∈ t.lookups}) t? info?) :
    Brings decls nodes {n | ∃ t ∈ t?, n ∈ t.lookups} (info?.forM Reflection.use) fun _ => True := by
  cases h with
  | none =>
    have none : {n : String | ∃ t ∈ (none : Option TypeExpr), n ∈ t.lookups} = ∅ := by simp
    rw [none]
    exact brings_pure trivial
  | @some t info h =>
    have some : {n : String | ∃ t' ∈ some t, n ∈ t'.lookups} = {n | n ∈ t.lookups} := by simp
    rw [some]
    exact brings_use hl h

end LayoutM

/-! ## The rounds of a reflection -/

/-- The memory is steady, and no declared structure is in use. -/
structure Layouts.Fresh (decls : Layouts) (nodes : List Node) (l : Layouts) : Prop
    extends decls.Steady nodes l where
  unused : ∀ s, .declared s ∉ l.live

namespace Reflection

open LayoutM

variable {p : Program} {decls : Layouts} {rank : String → Nat}

/-- The resource is the variable that is declared, with the layout of its type. -/
def Stems (decls : Layouts) (d : Declaration) (x : Resource) : Prop :=
  ∃ v, d = .value .var v ∧ v.name = x.name ∧ ∃ t ∈ v.type, x.type.Depicts decls {n | n ∈ t.lookups}

theorem keeps_fresh {α : Type} {x : LayoutM α} {P : α → Prop} (h : Brings decls p.nodes ∅ x P) :
    (Passing.keeping (decls.Fresh p.nodes)).obeys x := by
  intro l a l' hl hrun
  obtain ⟨-, steady, same⟩ := h l a l' hl.toSteady hrun
  refine ⟨steady, fun s hs => hl.unused s ?_⟩
  exact ((same s).1 hs).resolve_right Layouts.not_spans_empty

section

variable (hw : Written decls p.nodes rank)

include hw

/-- The round over the structures brings none of them into use. -/
theorem keeps_reset (s : StructDecl) : (Passing.keeping (decls.Fresh p.nodes)).obeys (reset s) := by
  let C := Passing.keeping (decls.Fresh p.nodes)
  refine C.obeys_bind (keeps_fresh (asks_structInfo hw s.name)) fun info => ?_
  refine C.obeys_bind (fun l _ l' hl h => ?_) fun _ => C.obeys_pure info
  cases h
  have unused : ∀ other, StructKey.declared other ∉
      l.live.filter fun key => decide (key ≠ .declared s.name) :=
    fun other hother => hl.unused other (List.mem_filter.1 hother).1
  exact ⟨⟨hl.follows.noted _ (List.Subset.refl _), hl.idle, fun name hname => absurd hname (unused name)⟩,
    unused⟩

variable (hu : decls.Unadorned) (hplain : ∀ d ∈ p.declarations, ∀ t ∈ d.types, t.Unadorned decls)

include hu hplain

theorem brings_resourceOf {v : VarDecl} (hv : .value .var v ∈ p.declarations) :
    Brings decls p.nodes ∅ (resourceOf v) fun x? => ∀ x, x? = some x → Stems decls (.value .var v) x := by
  unfold resourceOf
  split
  · exact brings_pure fun _ h => by cases h
  · rename_i t ht
    have hd : t ∈ (Declaration.value .var v).types := Option.mem_toList.2 ht
    have asked := brings_typeInfo hw hu (Program.nodes_subset_of_type hv hd) (hplain _ hv t hd)
    have number : ∀ name, Brings decls p.nodes ∅ (number? v.attributes name) fun _ => True := fun _ =>
      Questioning.obeys_number? (C := askingQuietly hw) _ _
    refine asked.ask fun type htype => ?_
    split
    · exact brings_pure fun _ h => by cases h
    · refine (number _).ask fun group _ => (number _).ask fun binding _ => brings_pure ?_
      rintro x ⟨rfl⟩
      exact ⟨v, rfl, rfl, t, ht, htype⟩

theorem brings_found {d : Declaration} (hd : d ∈ p.declarations) : Brings decls p.nodes ∅ (do
    match d with
    | .value .var v => return (← resourceOf v, none)
    | .value .override v => return (none, some (← overrideOf v))
    | _ => return ((none : Option Resource), (none : Option OverrideInfo)))
    fun r => ∀ x, r.1 = some x → Stems decls d x := by
  split
  · refine (brings_resourceOf hw hu hplain hd).ask fun x? hx => brings_pure hx
  · rename_i v
    have asked : Brings decls p.nodes ∅ (overrideOf v) fun _ => True :=
      Questioning.obeys_overrideOf (C := askingQuietly hw) fun t ht =>
        Program.nodes_subset_of_type hd (Option.mem_toList.2 ht)
    exact asked.ask fun _ _ => brings_pure nofun
  · exact brings_pure nofun

/-! ### What one function brings into use -/

/-- The names in the type of a variable at module scope. -/
def namesOf (p : Program) (x : String) : Set String :=
  {n | ∃ v, .value .var v ∈ p.declarations ∧ v.name = x ∧ ∃ t ∈ v.type, n ∈ t.lookups}

/-- The names that a function keeps in use: those in its signature, the structures that are mentioned
and those of the resources. -/
def usedBy (p : Program) (f : Function) (structs used : List String) : Set String :=
  {n | ∃ a ∈ f.args, n ∈ a.type.lookups} ∪ ({n | ∃ t ∈ f.returnType, n ∈ t.lookups} ∪
    ({n | n ∈ structs} ∪ {n | ∃ x ∈ used, n ∈ namesOf p x}))

omit hplain in
theorem brings_useAll {f : Function} {resources : List Resource} {args : List (String × TypeInfo)}
    {returnType : Option TypeInfo} {structs used : List String} (hl : decls.Acyclic)
    (hargs : List.Forall₂ (fun a r => r.2.Depicts decls {n | n ∈ a.type.lookups}) f.args args)
    (hreturn : Option.Rel (fun t info => info.Depicts decls {n | n ∈ t.lookups}) f.returnType returnType)
    (hstructs : ∀ name ∈ structs, decls.HasStruct name)
    (hused : ∀ name ∈ used, ∃ x, resources.find? (fun v => v.name = name) = some x ∧
      x.type.Depicts decls (namesOf p name)) :
    Brings decls p.nodes (usedBy p f structs used) (useAll resources args returnType structs used)
      fun _ => True := by
  have argument : ∀ (a : Field) (r : String × TypeInfo),
      r.2.Depicts decls {n | n ∈ a.type.lookups} →
      Brings decls p.nodes {n | n ∈ a.type.lookups} (use r.2) fun _ => True :=
    fun _ _ h => brings_use hl h
  have signature := brings_forM (hargs.imp argument)
  refine signature.bind fun _ _ => (brings_useOption hl hreturn).bind fun _ _ =>
    Brings.bind (P := fun _ => True) ?_ fun _ _ => ?_
  · have each : {n | n ∈ structs} = {n | ∃ name ∈ structs, n ∈ ({name} : Set String)} := by simp
    rw [each]
    refine brings_forM (List.forall₂_same.2 fun name hname => ?_)
    refine (brings_structInfo hw hu (hstructs name hname)).ask ?_
    rintro _ ⟨info, rfl, hinfo⟩
    exact brings_use hl hinfo
  · refine brings_forM (List.forall₂_same.2 fun name hname => ?_)
    obtain ⟨x, hx, hdepicts⟩ := hused name hname
    rw [hx]
    exact brings_use hl hdepicts

/-- A function that can run keeps in use what it names, and another one nothing. -/
theorem brings_functionOf {f : Function} {resources : List Resource} {graph : CallGraph}
    {scans : Table BodyScan} {running : List String} (hl : decls.Acyclic)
    (hf : .function f ∈ p.declarations)
    (hstructs : ∀ name ∈ collected BodyScan.structs graph scans f.name, decls.HasStruct name)
    (hused : ∀ name ∈ collected BodyScan.resources graph scans f.name, ∃ x,
      resources.find? (fun v => v.name = name) = some x ∧ x.type.Depicts decls (namesOf p name)) :
    Brings decls p.nodes {n | f.name ∈ running ∧ n ∈ usedBy p f
        (collected BodyScan.structs graph scans f.name) (collected BodyScan.resources graph scans f.name)}
      (functionOf p resources graph scans running f) fun _ => True := by
  have inside : ∀ t ∈ (Declaration.function f).types, t.nodes ⊆ p.nodes := fun t ht =>
    Program.nodes_subset_of_type hf ht
  have hargs : ∀ a ∈ f.args, a.type ∈ (Declaration.function f).types := fun a ha =>
    List.mem_append_left _ (List.mem_map_of_mem ha)
  have hreturn : ∀ t ∈ f.returnType, t ∈ (Declaration.function f).types := fun t ht =>
    List.mem_append_right _ (Option.mem_toList.2 ht)
  have members : ∀ s ∈ p.structs, ∀ m ∈ s.members, m.type.nodes ⊆ p.nodes := fun s hs m hm =>
    Program.nodes_subset_of_member hs hm
  have quiet {α : Type} {x : LayoutM α} : (askingQuietly hw).obeys x →
    Brings decls p.nodes ∅ x fun _ => True := id
  rw [functionOf_eq]
  have first : ∀ a ∈ f.args, Brings decls p.nodes ∅
      (do return (a.name, ← LayoutM.typeInfo a.type)) fun r : String × TypeInfo =>
        r.2.Depicts decls {n | n ∈ a.type.lookups} := fun a ha =>
    (brings_typeInfo hw hu (inside _ (hargs a ha)) (hplain _ hf _ (hargs a ha))).ask fun _ h =>
      brings_pure h
  refine (asks_mapM first).ask fun args ha => ?_
  refine (brings_option hw hu (fun t ht => inside t (hreturn t ht))
    fun t ht => hplain _ hf t (hreturn t ht)).ask fun returnType hr => ?_
  refine (quiet (Questioning.obeys_inputsOf members fun a ha => inside _ (hargs a ha))).ask
    fun inputs _ => ?_
  refine (quiet (Questioning.obeys_outputsOf members fun t ht => inside t (hreturn t ht))).ask
    fun outputs _ => ?_
  refine (quiet (Questioning.obeys_workgroupOf f)).ask fun size _ => ?_
  by_cases hrun : f.name ∈ running
  · have contained : running.contains f.name = true := List.contains_iff_mem.2 hrun
    simp only [contained, if_true, hrun, true_and]
    exact (brings_useAll hw hu hl ha hr hstructs hused).done
  · have missing : ¬running.contains f.name = true := fun h => hrun (List.contains_iff_mem.1 h)
    simp only [missing, hrun, false_and]
    exact brings_pure trivial

end

end Reflection

/-! ## What bodies spell -/

/-- The structure is named in the type that is mentioned, or is constructed. -/
def Mention.Spells (name : String) : Mention → Prop
  | .type t => name ∈ t.names
  | .call callee => name = callee
  | _ => False

namespace BodyScan

variable {w : Watched} {s : BodyScan} {name : String}

theorem mem_foldl_note {watched names found : List String} :
    name ∈ names.foldl (note watched) found ↔ name ∈ found ∨ name ∈ names ∧ name ∈ watched := by
  induction names generalizing found with
  | nil => simp
  | cons first names ih =>
    rw [List.foldl_cons, ih, mem_note_iff, List.mem_cons]
    grind

theorem mem_structs_step {m : Mention} :
    name ∈ (step w s m).structs ↔ name ∈ s.structs ∨ m.Spells name ∧ name ∈ w.structs := by
  cases m with
  | type t => exact mem_foldl_note
  | call callee => exact mem_note_iff
  | variable_ x =>
    rw [step_variable]
    split <;> simp [Mention.Spells]
  | _ => simp [step, Mention.Spells]

/-- The structures that are noted in a function are those that its mentions spell. -/
theorem mem_structs_ofFunction {f : Function} : name ∈ (ofFunction w f).structs ↔
    name ∈ w.structs ∧ ∃ m ∈ f.mentions, m.Spells name := by
  suffices general : ∀ (ms : List Mention) (s : BodyScan), name ∈ (ms.foldl (step w) s).structs ↔
      name ∈ s.structs ∨ name ∈ w.structs ∧ ∃ m ∈ ms, m.Spells name from
    (general _ _).trans (or_iff_right List.not_mem_nil)
  intro ms
  induction ms with
  | nil => simp
  | cons m ms ih =>
    intro s
    rw [List.foldl_cons, ih, mem_structs_step, List.exists_mem_cons_iff]
    grind

end BodyScan

/-! ## The structures of a program -/

namespace Layouts

variable {p : Program} {name : String}

theorem note_structs (l : Layouts) (v : VarDecl) : (ofProgram.note l v).structs = l.structs := by
  obtain ⟨constants, h⟩ := note_eq l v
  rw [h]

theorem note_live (l : Layouts) (v : VarDecl) : (ofProgram.note l v).live = l.live := by
  obtain ⟨constants, h⟩ := note_eq l v
  rw [h]

theorem live_ofProgram (p : Program) : (ofProgram p).live = [] := by
  rw [ofProgram_eq]
  refine List.foldlRecOn (motive := fun l : Layouts => l.live = []) _ _ rfl fun l hl d _ => ?_
  unfold declared
  split <;> simp only [note_live, hl]

/-- The structures that have a layout are those that the program declares. -/
theorem hasStruct_ofProgram : (ofProgram p).HasStruct name ↔ name ∈ p.structs.map StructDecl.name := by
  constructor
  · intro h
    obtain ⟨decl, hdecl⟩ := Option.isSome_iff_exists.1 h
    obtain ⟨hmem, rfl⟩ := (declares_ofProgram p).structs name decl hdecl
    exact List.mem_map_of_mem hmem
  · intro h
    obtain ⟨s, hs, rfl⟩ := List.mem_map.1 h
    rw [ofProgram_eq]
    -- once declared, a structure stays declared
    have stays : ∀ (l : Layouts) (d : Declaration), l.HasStruct s.name → (declared l d).HasStruct s.name := by
      intro l d hl
      unfold declared HasStruct at *
      split
      · rename_i s'
        by_cases hn : s.name = s'.name
        · rw [hn, Table.find?_insert_self]
          rfl
        · rwa [Table.find?_insert_of_ne _ _ hn]
      all_goals simpa only [note_structs] using hl
    obtain ⟨before, after, hsplit⟩ := List.append_of_mem (Program.mem_structs.1 hs)
    rw [hsplit, List.foldl_append, List.foldl_cons]
    refine List.foldlRecOn (motive := fun l : Layouts => l.HasStruct s.name) _ _ ?_
      fun l hl d _ => stays l d hl
    rw [declared, HasStruct, Table.find?_insert_self]
    rfl

theorem hasStruct_iff {l : Layouts} : l.HasStruct name ↔ name ∈ l.structs.map Prod.fst := by
  constructor
  · intro h
    obtain ⟨decl, hdecl⟩ := Option.isSome_iff_exists.1 h
    exact List.mem_map_of_mem (Table.mem_of_find? hdecl)
  · intro h
    obtain ⟨entry, hentry, rfl⟩ := List.mem_map.1 h
    rw [HasStruct, Option.isSome_iff_ne_none]
    intro hnone
    exact absurd rfl (bne_iff_ne.1 (List.lookup_eq_none_iff.1 hnone entry hentry))

/-- The declared types of a program are unadorned if all that is laid out for it is. -/
theorem unadorned_ofProgram
    (h : ∀ d ∈ p.declarations, ∀ t ∈ d.types, t.Unadorned (ofProgram p)) : (ofProgram p).Unadorned := by
  have declared := declares_ofProgram p
  refine ⟨fun name decl hdecl => (declared.structs name decl hdecl).2, fun name decl hdecl m hm => ?_,
    fun name target htarget => ?_⟩
  · have hmem := Program.mem_structs.1 (declared.structs name decl hdecl).1
    exact h _ hmem _ (List.mem_map_of_mem hm)
  · obtain ⟨a, ha, -, rfl⟩ := declared.aliases name target htarget
    exact h _ (Program.mem_aliases.1 ha) _ List.mem_cons_self

end Layouts

/-! ## The structures in use -/

/-- The function can run: an entry point gets to it. -/
def Program.Runs (p : Program) (name : String) : Prop :=
  ∃ entry ∈ p.functions, entry.isEntryPoint = true ∧ p.Reaches entry.name name

/-- A name that keeps structures in use: in the signature of a function that can run, as a structure
that its body spells, or in the type of a resource that it can touch. -/
inductive Reflection.Root (p : Program) (r : Reflection) (name : String) : Prop
  | argument (f : Function) (a : Field) (declared : f ∈ p.functions) (runs : p.Runs f.name)
      (argument : a ∈ f.args) (asked : name ∈ a.type.lookups)
  | result (f : Function) (t : TypeExpr) (declared : f ∈ p.functions) (runs : p.Runs f.name)
      (result : f.returnType = some t) (asked : name ∈ t.lookups)
  | spelled (f : Function) (m : Mention) (declared : f ∈ p.functions) (runs : p.Runs f.name)
      (mentioned : m ∈ f.mentions) (spelled : m.Spells name)
      (struct : name ∈ p.structs.map StructDecl.name)
  | resource (info : FunctionInfo) (v : VarDecl) (t : TypeExpr) (listed : info ∈ r.functions)
      (runs : p.Runs info.name) (touched : v.name ∈ info.resources)
      (declared : .value .var v ∈ p.declarations) (type : v.type = some t) (asked : name ∈ t.lookups)

namespace Reflection

open LayoutM

variable {p : Program} {source : String} {r : Reflection} {l : Layouts}

theorem mem_reachable_iff (distinct : (p.functions.map Function.name).Nodup) {name : String} :
    name ∈ (CallGraph.ofProgram p).reachable p ↔ p.Runs name := by
  have walks := (CallGraph.ofProgram p).listing_walks
    ((p.functions.filter Function.isEntryPoint).map Function.name)
  rw [List.foldl_map] at walks
  refine (walks.mem_iff name).trans ?_
  have same : (CallGraph.ofProgram p).Calls = p.Calls :=
    funext fun a => funext fun b => propext (CallGraph.mem_direct_iff distinct)
  rw [same, Program.Runs]
  constructor
  · rintro ⟨_, hstart, reaches⟩
    obtain ⟨entry, hentry, rfl⟩ := List.mem_map.1 hstart
    obtain ⟨hmem, hpoint⟩ := List.mem_filter.1 hentry
    exact ⟨entry, hmem, hpoint, reaches⟩
  · rintro ⟨entry, hmem, hpoint, reaches⟩
    exact ⟨entry.name, List.mem_map_of_mem (List.mem_filter.2 ⟨hmem, hpoint⟩), reaches⟩

theorem mem_of_forall₂ {α β : Type} {R : α → β → Prop} {items : List α} {others : List β} {b : β}
    (h : List.Forall₂ R items others) (hb : b ∈ others) : ∃ a ∈ items, R a b := by
  induction h with
  | nil => cases hb
  | cons first _ ih =>
    obtain rfl | hb := List.mem_cons.1 hb
    · exact ⟨_, List.mem_cons_self, first⟩
    · obtain ⟨a, ha, hab⟩ := ih hb
      exact ⟨a, List.mem_cons_of_mem _ ha, hab⟩

/-- What a function mentions is mentioned by each function that gets there, and that can run as soon
as one of these can. -/
theorem root_iff {watched : Watched} (name : String)
    (distinct : (p.functions.map Function.name).Nodup)
    (hstructs : ∀ n, n ∈ watched.structs ↔ n ∈ p.structs.map StructDecl.name)
    (described : List.Forall₂ (Describes watched p) p.functions r.functions) :
    (∃ f ∈ p.functions, f.name ∈ (CallGraph.ofProgram p).reachable p ∧ name ∈ usedBy p f
      (collected BodyScan.structs (CallGraph.ofProgram p) (scans watched p) f.name)
      (collected BodyScan.resources (CallGraph.ofProgram p) (scans watched p) f.name)) ↔
      Root p r name := by
  simp only [mem_reachable_iff distinct]
  constructor
  · rintro ⟨f, hf, runs, ⟨a, ha, asked⟩ | ⟨t, ht, asked⟩ | hspelled | ⟨x, hx, v, hv, rfl, t, ht, asked⟩⟩
    · exact .argument f a hf runs ha asked
    · exact .result f t hf runs ht asked
    · obtain ⟨g, hg, reaches, hscan⟩ := (mem_collected_iff _ distinct).1 hspelled
      obtain ⟨hstruct, m, hm, spells⟩ := BodyScan.mem_structs_ofFunction.1 hscan
      obtain ⟨entry, hentry, hpoint, path⟩ := runs
      exact .spelled g m hg ⟨entry, hentry, hpoint, path.trans reaches⟩ hm spells ((hstructs _).1 hstruct)
    · obtain ⟨info, hinfo, hname, hresources⟩ := mem_of_forall₂ described.flip hf
      exact .resource info v t hinfo (hname ▸ runs) (hresources ▸ hx) hv ht asked
  · rintro (⟨f, a, hf, runs, ha, asked⟩ | ⟨f, t, hf, runs, ht, asked⟩ |
      ⟨f, m, hf, runs, hm, spells, hstruct⟩ | ⟨info, v, t, hinfo, runs, hx, hv, ht, asked⟩)
    · exact ⟨f, hf, runs, .inl ⟨a, ha, asked⟩⟩
    · exact ⟨f, hf, runs, .inr (.inl ⟨t, ht, asked⟩)⟩
    · refine ⟨f, hf, runs, .inr (.inr (.inl ?_))⟩
      refine (mem_collected_iff _ distinct).2 ⟨f, hf, .refl, ?_⟩
      exact BodyScan.mem_structs_ofFunction.2 ⟨(hstructs _).2 hstruct, m, hm, spells⟩
    · obtain ⟨f, hf, hname, hresources⟩ := mem_of_forall₂ described hinfo
      refine ⟨f, hf, hname ▸ runs, .inr (.inr (.inr ⟨v.name, ?_, v, hv, rfl, t, ht, asked⟩))⟩
      rw [hresources] at hx
      exact hx

namespace Survey

/-- All resources that have been found, uniforms first. -/
def resourcesOf (found : List (Option Resource × Option OverrideInfo)) : List Resource :=
  bound found [.uniform] ++ bound found [.storage] ++ bound found [.texture, .storageTexture] ++
    bound found [.sampler]

/-- The names that bodies are searched for once these resources and overrides have been found. -/
def watchedOf (found : List (Option Resource × Option OverrideInfo)) (structs : Table StructDecl) :
    Watched where
  resources := (resourcesOf found).map Resource.name
  overrides := (found.filterMap Prod.snd).map OverrideInfo.name
  structs := structs.map Prod.fst

theorem mem_found {found : List (Option Resource × Option OverrideInfo)} {x : Resource}
    (h : x ∈ resourcesOf found) : ∃ o, (some x, o) ∈ found := by
  have of_bound : ∀ kinds, x ∈ bound found kinds → ∃ o, (some x, o) ∈ found := by
    intro kinds hx
    obtain ⟨⟨x?, o⟩, hmem, he⟩ := List.mem_filterMap.1 (List.mem_filter.1 hx).1
    cases he
    exact ⟨o, hmem⟩
  simp only [resourcesOf, List.mem_append] at h
  rcases h with ((h | h) | h) | h <;> exact of_bound _ h

end Survey

section

variable {decls : Layouts} {rank : String → Nat} {found : List (Option Resource × Option OverrideInfo)}
  (apart : ((p.values .var).map VarDecl.name).Nodup)
  (stems : List.Forall₂ (fun d r => ∀ x, r.1 = some x → Stems decls d x) p.declarations found)

include apart stems

/-- The type of the resource that is found under a name is that of the variable. -/
theorem find?_resourcesOf {name : String} (h : name ∈ (Survey.resourcesOf found).map Resource.name) :
    ∃ x, (Survey.resourcesOf found).find? (fun v => v.name = name) = some x ∧
      x.type.Depicts decls (namesOf p name) := by
  obtain ⟨first, hfirst, hname⟩ := List.mem_map.1 h
  obtain ⟨x, hx⟩ := Option.isSome_iff_exists.1
    (List.find?_isSome (p := fun v => decide (v.name = name)).2 ⟨first, hfirst, decide_eq_true hname⟩)
  refine ⟨x, hx, ?_⟩
  have hxname : x.name = name :=
    of_decide_eq_true (List.find?_some (p := fun v : Resource => decide (v.name = name)) hx)
  obtain ⟨o, hmem⟩ := Survey.mem_found (List.mem_of_find?_eq_some hx)
  obtain ⟨d, hd, stem⟩ := mem_of_forall₂ stems hmem
  obtain ⟨v, rfl, hv, t, ht, depicts⟩ := stem x rfl
  have same : namesOf p name = {n | n ∈ t.lookups} := by
    ext n
    constructor
    · rintro ⟨v', hd', hv', t', ht', asked⟩
      obtain rfl : v' = v := List.inj_on_of_nodup_map apart (Program.mem_values.2 hd')
        (Program.mem_values.2 hd) (hv'.trans (hv.trans hxname).symm)
      cases ht.symm.trans ht'
      exact asked
    · exact fun asked => ⟨v, hd, hv.trans hxname, t, ht, asked⟩
  rwa [same]

/-- What the functions keep in use is brought into use, and each of them is described. -/
theorem brings_functionsOf (hw : Written decls p.nodes rank) (hu : decls.Unadorned)
    (hl : decls.Acyclic) (hplain : ∀ d ∈ p.declarations, ∀ t ∈ d.types, t.Unadorned decls)
    (distinct : (p.functions.map Function.name).Nodup) :
    Brings decls p.nodes {n | ∃ f ∈ p.functions, f.name ∈ (CallGraph.ofProgram p).reachable p ∧
        n ∈ usedBy p f (collected BodyScan.structs (CallGraph.ofProgram p)
            (scans (Survey.watchedOf found decls.structs) p) f.name)
          (collected BodyScan.resources (CallGraph.ofProgram p)
            (scans (Survey.watchedOf found decls.structs) p) f.name)}
      (Survey.functionsOf p found decls.structs)
      (List.Forall₂ (Describes (Survey.watchedOf found decls.structs) p) p.functions) := by
  intro l infos l' hsteady hrun
  refine ⟨gives_mapM functionOf_gives p.functions l infos l' hrun, ?_⟩
  refine (brings_mapM (P := fun _ _ => True) (fun f hf => brings_functionOf hw hu hplain hl
    (Program.mem_functions.1 hf) (fun n hn => ?_) fun n hn => ?_) l infos l' hsteady hrun).2
  · obtain ⟨g, hg, -, hscan⟩ := (mem_collected_iff _ distinct).1 hn
    exact Layouts.hasStruct_iff.2 (BodyScan.mem_structs_ofFunction.1 hscan).1
  · exact find?_resourcesOf apart stems ((mem_mentioned_iff distinct).1 hn).1

end

/-- The structures in use when a program has been reflected. -/
theorem live_iff (hsource : Program.ofSource source = .ok p)
    (distinct : (p.functions.map Function.name).Nodup)
    (apart : ((p.values .var).map VarDecl.name).Nodup) (hl : (Layouts.ofProgram p).Acyclic)
    (hplain : ∀ d ∈ p.declarations, ∀ t ∈ d.types, t.Unadorned (Layouts.ofProgram p))
    (h : (Reflection.ofProgram p).run (Layouts.ofProgram p) = .ok (r, l)) (s : String) :
    .declared s ∈ r.live ↔ (Layouts.ofProgram p).Spans {name | Root p r name} s := by
  obtain ⟨rank, hr⟩ := hl.ranked
  have hw := Layouts.written_ofSource hsource hr
  have hu := Layouts.unadorned_ofProgram hplain
  have start : (Layouts.ofProgram p).Fresh p.nodes (Layouts.ofProgram p) := by
    refine ⟨⟨Layouts.follows_ofProgram p p.nodes, (Layouts.declares_ofProgram p).inProgress, ?_⟩, ?_⟩
    all_goals simp [StructKey.Closed, Layouts.live_ofProgram]
  rw [ofProgram_eq] at h
  obtain ⟨structs, l₁, hstructs, h⟩ := bind_ok h
  obtain ⟨survey, l₂, hsurvey, h⟩ := bind_ok h
  obtain ⟨_, _, hget, h⟩ := bind_ok h
  cases hget
  unfold Survey.ofProgram at hsurvey
  obtain ⟨aliases, l₃, haliases, hsurvey⟩ := bind_ok hsurvey
  obtain ⟨found, l₄, hfound, hsurvey⟩ := bind_ok hsurvey
  obtain ⟨_, _, hget, hsurvey⟩ := bind_ok hsurvey
  cases hget
  obtain ⟨infos, l₅, hinfos, hsurvey⟩ := bind_ok hsurvey
  cases hsurvey
  cases h
  -- up to the functions no structure is in use
  have first := Passing.obeys_mapM (C := .keeping ((Layouts.ofProgram p).Fresh p.nodes))
    (fun s _ => keeps_reset hw s) _ _ _ start hstructs
  have second := keeps_fresh (Passing.obeys_mapM (C := (askingQuietly hw).toPassing) fun a ha =>
    Questioning.obeys_aliasOf (Program.nodes_subset_of_alias ha)) _ _ _ first haliases
  have declared := asks_mapM fun d hd => brings_found hw hu hplain hd
  obtain ⟨stems, -, -⟩ := declared _ _ _ second.toSteady hfound
  have third := keeps_fresh declared _ _ _ second hfound
  rw [third.follows.structs] at hinfos
  obtain ⟨described, -, live⟩ :=
    brings_functionsOf apart stems hw hu hl hplain distinct _ _ _ third.toSteady hinfos
  refine (live s).trans ((or_iff_right (third.unused s)).trans ?_)
  have roots := fun name => root_iff (r := (Survey.toReflection ⟨aliases, found, infos⟩ structs l))
    name distinct
    (fun n => Layouts.hasStruct_iff.symm.trans Layouts.hasStruct_ofProgram) described
  simp only [roots]

/-- A structure is in use if it can be reached from a name that keeps it in use: through members,
elements, parameters and aliases. This needs names of structures without attributes of their own. Of
what a body spells only the structures count, so an alias in a body keeps nothing in use. -/
theorem isInUse_iff (hsource : Program.ofSource source = .ok p)
    (distinct : (p.functions.map Function.name).Nodup)
    (apart : ((p.values .var).map VarDecl.name).Nodup) (hl : (Layouts.ofProgram p).Acyclic)
    (hplain : ∀ d ∈ p.declarations, ∀ t ∈ d.types, t.Unadorned (Layouts.ofProgram p))
    (h : (Reflection.ofProgram p).run (Layouts.ofProgram p) = .ok (r, l)) {s : StructDecl}
    (hs : s ∈ p.structs) : r.isInUse (.declared s.name) = true ↔
      ∃ name, Root p r name ∧ Relation.ReflTransGen (Layouts.ofProgram p).Refers name s.name := by
  have declared : (Layouts.ofProgram p).HasStruct s.name :=
    Layouts.hasStruct_ofProgram.2 (List.mem_map_of_mem hs)
  rw [isInUse, List.contains_iff_mem, live_iff hsource distinct apart hl hplain h]
  exact and_iff_right declared

/-! ### Nested structures -/

/-- Two nested structures, one by itself, and an entry point that takes the outer one. -/
def nestedSource : String :=
  "struct A \x7b x: f32 \x7d struct B \x7b y: A \x7d struct C \x7b z: f32 \x7d @vertex fn f(b: B) \x7b \x7d"

/-- What the text spells. -/
def nested : Program where
  declarations := [.struct ⟨"A", [⟨"x", .named 0 [] "f32", []⟩], [], 1, 1⟩,
    .struct ⟨"B", [⟨"y", .named 1 [] "A", []⟩], [], 1, 1⟩,
    .struct ⟨"C", [⟨"z", .named 2 [] "f32", []⟩], [], 1, 1⟩,
    .function ⟨"f", [⟨"b", .named 3 [] "B", []⟩], none, [], [.mk "vertex" [] 1], [], 1, 1⟩]

/-- The program is the one with the nested structures. -/
def isNested : Program → Bool
  | ⟨[.struct ⟨"A", [⟨"x", .named 0 [] "f32", []⟩], [], 1, 1⟩,
      .struct ⟨"B", [⟨"y", .named 1 [] "A", []⟩], [], 1, 1⟩,
      .struct ⟨"C", [⟨"z", .named 2 [] "f32", []⟩], [], 1, 1⟩,
      .function ⟨"f", [⟨"b", .named 3 [] "B", []⟩], none, [], [.mk "vertex" [] 1], [], 1, 1⟩]⟩ => true
  | _ => false

theorem ofSource_of_check {source : String} {q : Program} (check : Program → Bool)
    (h : (Program.ofSource source).toOption.any check = true)
    (hq : ∀ p, check p = true → p = q) : Program.ofSource source = .ok q := by
  cases hp : Program.ofSource source with
  | error e =>
    rw [hp] at h
    cases h
  | ok p =>
    rw [hp] at h
    rw [hq p h]

theorem ofSource_nested : Program.ofSource nestedSource = .ok nested := by
  refine ofSource_of_check isNested (by decide +kernel) fun p h => ?_
  unfold isNested at h
  split at h
  · rfl
  · cases h

/-- What reflecting the program leaves in use. -/
def liveOf (p : Program) : Option (List StructKey) :=
  ((Reflection.ofProgram p).run (Layouts.ofProgram p)).toOption.map fun r => r.1.live

theorem run_of_liveOf {p : Program} {live : List StructKey} (h : liveOf p = some live) :
    ∃ r l, (Reflection.ofProgram p).run (Layouts.ofProgram p) = .ok (r, l) ∧ r.live = live := by
  unfold liveOf at h
  cases hrun : (Reflection.ofProgram p).run (Layouts.ofProgram p) with
  | error e =>
    rw [hrun] at h
    cases h
  | ok found =>
    rw [hrun] at h
    cases h
    exact ⟨_, _, rfl, rfl⟩

theorem isInUse_iff_nested : ∃ p r l s, Program.ofSource nestedSource = .ok p ∧
    (Reflection.ofProgram p).run (Layouts.ofProgram p) = .ok (r, l) ∧ s ∈ p.structs ∧ s.name = "A" ∧
      r.isInUse (.declared "A") = true := by
  have live : liveOf nested = some [.declared "A", .declared "B"] := by cbv
  obtain ⟨r, l, hrun, -⟩ := run_of_liveOf live
  have ordered : (Layouts.ofProgram nested).ordered (fun name =>
      if name = "B" then 2 else if name = "f32" then 0 else 1) = true := by decide
  have hl := Layouts.acyclic_of_ordered ordered
  have refers : (Layouts.ofProgram nested).Refers "B" "A" :=
    .struct _ ⟨"y", .named 1 [] "A", []⟩ rfl List.mem_cons_self List.mem_cons_self
  have entry : Function.mk "f" [⟨"b", .named 3 [] "B", []⟩] none [] [.mk "vertex" [] 1] [] 1 1 ∈
      nested.functions := List.mem_cons_self
  refine ⟨nested, r, l, ⟨"A", [⟨"x", .named 0 [] "f32", []⟩], [], 1, 1⟩, ofSource_nested, hrun,
    List.mem_cons_self, rfl, ?_⟩
  refine (isInUse_iff ofSource_nested (by decide) (by decide) hl ?_ hrun
    (s := ⟨"A", [⟨"x", .named 0 [] "f32", []⟩], [], 1, 1⟩) List.mem_cons_self).2
      ⟨"B", .argument _ _ entry ⟨_, entry, rfl, .refl⟩ List.mem_cons_self List.mem_cons_self,
        .single refers⟩
  intro d hd t ht
  fin_cases hd <;> fin_cases ht <;> exact .inl rfl

/-! ### What is missed -/

/-- An entry point with a variable whose type is an alias. -/
def aliasedSource : String :=
  "struct S \x7b x: f32 \x7d alias A = S; @vertex fn f() \x7b var a: A; \x7d"

/-- What the text spells. -/
def aliased : Program where
  declarations := [.struct ⟨"S", [⟨"x", .named 0 [] "f32", []⟩], [], 1, 1⟩,
    .alias_ ⟨"A", .named 1 [] "S", 1⟩,
    .function ⟨"f", [], none, [], [.mk "vertex" [] 1],
      [.simple ⟨1, .declare .var ⟨"a", some (.named 2 [] "A"), none, none, none, [], 1⟩⟩], 1, 1⟩]

/-- The program is the one with the alias. -/
def isAliased : Program → Bool
  | ⟨[.struct ⟨"S", [⟨"x", .named 0 [] "f32", []⟩], [], 1, 1⟩,
      .alias_ ⟨"A", .named 1 [] "S", 1⟩,
      .function ⟨"f", [], none, [], [.mk "vertex" [] 1],
        [.simple ⟨1, .declare .var ⟨"a", some (.named 2 [] "A"), none, none, none, [], 1⟩⟩], 1, 1⟩]⟩ => true
  | _ => false

theorem ofSource_aliased : Program.ofSource aliasedSource = .ok aliased := by
  refine ofSource_of_check isAliased (by decide +kernel) fun p h => ?_
  unfold isAliased at h
  split at h
  · rfl
  · cases h

/-- The alias of the structure is the type of a variable in an entry point, and the structure is not
in use. -/
theorem isInUse_missed : ∃ p r l, Program.ofSource aliasedSource = .ok p ∧
    (Reflection.ofProgram p).run (Layouts.ofProgram p) = .ok (r, l) ∧
      (∃ f ∈ p.functions, f.isEntryPoint = true ∧ ∃ t, .type t ∈ f.mentions ∧ "A" ∈ t.lookups) ∧
      (Layouts.ofProgram p).Refers "A" "S" ∧ r.isInUse (.declared "S") = false := by
  have live : liveOf aliased = some [] := by cbv
  obtain ⟨r, l, hrun, hlive⟩ := run_of_liveOf live
  refine ⟨aliased, r, l, ofSource_aliased, hrun, ⟨_, List.mem_cons_self, rfl, .named 2 [] "A", ?_, ?_⟩,
    .alias_ (.named 1 [] "S") rfl rfl List.mem_cons_self, ?_⟩
  · simp [Function.mentions, Stmt.blockMentions, Stmt.listMentions, Stmt.mentions, SimpleStmt.mentions,
      VarDecl.mentions]
  · exact List.mem_cons_self
  · rw [isInUse, hlive]
    rfl

/-- `struct S { x: f32 } struct T { s: @size(16) S }` and an entry point `fn f(a: T)`. -/
def adorned : Program where
  declarations := [.struct ⟨"S", [⟨"x", .named 0 [] "f32", []⟩], [], 1, 1⟩,
    .struct ⟨"T", [⟨"s", .named 1 [.mk "size" [.literal ⟨0, 0⟩ (.int 16 none)] 1] "S", []⟩], [], 1, 1⟩,
    .function ⟨"f", [⟨"a", .named 2 [] "T", []⟩], none, [], [.mk "vertex" [] 1], [], 1, 1⟩]

/-- With attributes of its own the structure has a copy, and only the copy is in use. -/
example : liveOf adorned = some [.annotated 1, .declared "T"] := by cbv

end Reflection

end Wgsl
