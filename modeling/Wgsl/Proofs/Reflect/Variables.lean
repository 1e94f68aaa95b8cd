import Wgsl.Proofs.Layout.Naming
import Wgsl.Proofs.Layout.Transparent
import Wgsl.Proofs.Reflect.Again

/-! # The resource that a variable is

Reflection finds the resource of every variable at module scope whose type is that of one. Where the
type is a generator, the resource's type is called as the program writes it.

* `LayoutM.ran_mapM`: each item of a round was asked for while the invariant held.
* `Reflection.resource_of_generator`: the resource of a variable whose type is a generator.
-/

namespace Wgsl
set_option autoImplicit false

open LayoutM

namespace LayoutM

variable {α β : Type}

/-- Each item of a round was asked for at some time, and the invariant held then. -/
theorem ran_mapM {P : Layouts → Prop} {f : α → LayoutM β} {items : List α}
    (hf : ∀ a ∈ items, ∀ l b l', P l → (f a).run l = .ok (b, l') → P l') {l l' : Layouts}
    {bs : List β} (hl : P l) (h : (items.mapM f).run l = .ok (bs, l')) {a : α} (ha : a ∈ items) :
    ∃ l₁ b l₂, P l₁ ∧ (f a).run l₁ = .ok (b, l₂) ∧ b ∈ bs := by
  induction items generalizing l bs with
  | nil => cases ha
  | cons first items ih =>
    rw [List.mapM_cons] at h
    obtain ⟨b, l₁, hb, h⟩ := bind_ok h
    obtain ⟨rest, l₂, hrest, h⟩ := bind_ok h
    cases h
    obtain rfl | ha := List.mem_cons.1 ha
    · exact ⟨l, b, l₁, hl, hb, List.mem_cons_self⟩
    · obtain ⟨l₃, c, l₄, hp, hc, hmem⟩ := ih (fun c hc => hf c (List.mem_cons_of_mem _ hc))
        (hf first List.mem_cons_self l b l₁ hl hb) hrest ha
      exact ⟨l₃, c, l₄, hp, hc, List.mem_cons_of_mem _ hmem⟩

end LayoutM

/-- Nothing is remembered before anything is laid out. -/
theorem Layouts.labelled_ofProgram (p : Program) : (Layouts.ofProgram p).Labelled p.nodes := by
  have declared := declares_ofProgram p
  refine ⟨fun name decl hdecl m hm n hn => ?_, fun name target htarget n hn => ?_,
    fun t info _ _ h => ?_⟩
  · exact Program.nodes_subset_of_member (declared.structs name decl hdecl).1 hm hn
  · obtain ⟨a, ha, -, rfl⟩ := declared.aliases name target htarget
    exact Program.nodes_subset_of_alias ha hn
  · rw [(empty_ofProgram p).byNode] at h
    cases h

namespace Program

variable {p : Program}

/-- What a reflection lays out for a declaration is among the nodes of the program. -/
theorem nodes_subset_of_type {d : Declaration} {t : TypeExpr} (hd : d ∈ p.declarations)
    (ht : t ∈ d.types) : t.nodes ⊆ p.nodes := by
  have optional : ∀ t? : Option TypeExpr, t ∈ t?.toList → t.nodes ⊆ TypeExpr.paramNodes t? := by
    intro t? ht
    rw [Option.mem_toList] at ht
    cases ht
    exact List.Subset.refl _
  have field : ∀ fields : List Field, t ∈ fields.map Field.type → t.nodes ⊆ fields.flatMap Field.nodes := by
    intro fields ht n hn
    obtain ⟨m, hm, rfl⟩ := List.mem_map.1 ht
    exact List.mem_flatMap.2 ⟨m, hm, List.mem_append_left _ hn⟩
  refine List.Subset.trans (fun n hn => ?_) (nodes_subset hd)
  cases d with
  | struct s => exact List.mem_append_left _ (field s.members ht hn)
  | alias_ a =>
    obtain rfl := List.mem_singleton.1 ht
    exact hn
  | value kind v =>
    have written : t ∈ v.type.toList := by
      cases kind with
      | const => cases ht
      | _ => exact ht
    exact List.mem_append_left _ (List.mem_append_left _ (optional v.type written hn))
  | function f =>
    refine List.mem_append_left _ (List.mem_append_left _ (List.mem_append_left _ ?_))
    exact (List.mem_append.1 ht).elim (fun ht => List.mem_append_left _ (field f.args ht hn))
      fun ht => List.mem_append_right _ (optional f.returnType ht hn)
  | _ => cases ht

end Program

namespace Reflection

variable {p : Program} {v : VarDecl} {t : TypeExpr}

section

variable (hapart : TypesApart p.nodes)

include hapart

theorem labels_reset (s : StructDecl) : Labels p.nodes (reset s) := by
  refine (labelling p.nodes).obeys_bind (labels_structInfo hapart s.name) fun info => ?_
  refine (labelling p.nodes).obeys_bind (fun l _ l' hl h => ?_) fun _ =>
    (labelling p.nodes).obeys_pure info
  cases h
  exact ⟨hl.structs, hl.aliases, hl.names⟩

/-- Questions about the types of the program keep the names. -/
def askingLabels : Questioning fun t => t.nodes ⊆ p.nodes where
  toPassing := (labelling p.nodes).toPassing
  obeys_typeInfo _ ht := labels_typeInfo hapart fun _ hn => ht hn
  obeys_structInfo := labels_structInfo hapart

end

/-- What has been found is listed, whatever its kind. -/
theorem Survey.mem_resources {survey : Survey} {structs : List (Option TypeInfo)} {l : Layouts}
    {x : Resource} {o : Option OverrideInfo} (h : (some x, o) ∈ survey.found) :
    x ∈ (survey.toReflection structs l).resources := by
  have listed : ∀ kinds : List ResourceKind, kinds.contains x.kind = true → x ∈ bound survey.found kinds :=
    fun kinds hk => List.mem_filter.2 ⟨List.mem_filterMap.2 ⟨_, h, rfl⟩, hk⟩
  have all : x ∈ bound survey.found [.uniform] ++ bound survey.found [.storage] ++
      bound survey.found [.texture, .storageTexture] ++ bound survey.found [.sampler] := by
    simp only [List.mem_append]
    cases hk : x.kind with
    | uniform => exact .inl (.inl (.inl (listed _ (by rw [hk]; rfl))))
    | storage => exact .inl (.inl (.inr (listed _ (by rw [hk]; rfl))))
    | texture => exact .inl (.inr (listed _ (by rw [hk]; rfl)))
    | storageTexture => exact .inl (.inr (listed _ (by rw [hk]; rfl)))
    | sampler => exact .inr (listed _ (by rw [hk]; rfl))
  exact all

/-- A variable whose type is a generator: if it is a resource, it is listed, and its type is called
as it is written. -/
theorem resource_of_generator {r : Reflection} {l : Layouts} (hapart : TypesApart p.nodes)
    (h : (Reflection.ofProgram p).run (Layouts.ofProgram p) = .ok (r, l))
    (hv : .value .var v ∈ p.declarations) (ht : v.type = some t) (hgen : t.isGenerator = true) :
    ∃ info : TypeInfo, info.name = t.text ∧ ∀ kind, resourceKind? v.storage info = some kind →
      ∃ x ∈ r.resources, x.name = v.name ∧ x.type = info ∧ x.kind = kind := by
  rw [ofProgram_eq] at h
  obtain ⟨structs, l₁, hstructs, h⟩ := bind_ok h
  obtain ⟨survey, l₂, hsurvey, h⟩ := bind_ok h
  obtain ⟨_, _, hget, h⟩ := bind_ok h
  cases hget
  cases h
  unfold Survey.ofProgram at hsurvey
  obtain ⟨aliases, l₃, haliases, hsurvey⟩ := bind_ok hsurvey
  obtain ⟨found, l₄, hfound, hsurvey⟩ := bind_ok hsurvey
  obtain ⟨_, _, hget, hsurvey⟩ := bind_ok hsurvey
  cases hget
  obtain ⟨functions, l₅, -, hsurvey⟩ := bind_ok hsurvey
  cases hsurvey
  have first := Passing.obeys_mapM (C := (labelling p.nodes).toPassing)
    (fun s _ => labels_reset hapart s) _ _ _ (Layouts.labelled_ofProgram p) hstructs
  have second := Passing.obeys_mapM (C := (labelling p.nodes).toPassing) (fun a ha =>
    Questioning.obeys_aliasOf (C := askingLabels hapart) (Program.nodes_subset_of_alias ha))
    _ _ _ first haliases
  obtain ⟨l₆, _, l₇, hl, hrun, hmem⟩ := ran_mapM (fun d hd =>
    Questioning.obeys_found (C := askingLabels hapart) fun t ht => Program.nodes_subset_of_type hd ht)
    second hfound hv
  obtain ⟨found?, l₈, hresource, hend⟩ := bind_ok hrun
  cases hend
  unfold resourceOf at hresource
  rw [ht] at hresource
  obtain ⟨info, l₉, hinfo, hresource⟩ := bind_ok hresource
  have inside : ∀ n ∈ t.nodes, n ∈ p.nodes := fun n hn =>
    Program.nodes_subset_of_type hv (show t ∈ v.type.toList from Option.mem_toList.2 ht) hn
  refine ⟨info, name_typeInfo hapart inside hgen hl hinfo, fun kind hkind => ?_⟩
  rw [hkind] at hresource
  obtain ⟨group, l₁₀, -, hresource⟩ := bind_ok hresource
  obtain ⟨binding, l₁₁, -, hresource⟩ := bind_ok hresource
  cases hresource
  exact ⟨_, Survey.mem_resources hmem, rfl, rfl, rfl⟩

end Reflection

end Wgsl
