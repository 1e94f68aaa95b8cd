import Wgsl.Proofs.Machine.Noninterference
import Wgsl.Proofs.Machine.Stack
import Wgsl.Proofs.Machine.Surroundings
import Wgsl.Proofs.Tree.Mentioned

/-! # Machines without pointers

A shader that takes no address never holds a pointer: no name is bound to one, and no expression
gives one. Pointers are the only values that know where a variable lives.

* `Value.Plain`: the value holds no pointer.
* `Correspondence.solo`: a run beside itself, in which no name is bound to a pointer.
* `Attempt.pointerless_prepare`, `Exec.pointerless_beginInvocation`: what is done before the body of
  an entry point runs binds no name to a pointer.
-/

namespace Wgsl
set_option autoImplicit false

open Correspondence
open Value (rename)

/-! ## Values -/

/-- Leaves the values that hold no pointer. -/
def Renaming.deeper : Renaming where
  place q := q.below (.index 0)
  texture i := i

/-- Leaves every value. -/
def Renaming.same : Renaming where
  place q := q
  texture i := i

/-- The value holds no pointer. -/
def Value.Plain (v : Value) : Prop := v.rename .deeper = v

/-- The slot holds no pointer. -/
def Slot.Plain : Slot → Prop
  | .value v => v.Plain
  | .view _ => True

namespace Value

variable {v : Value}

theorem not_plain_pointer (q : Place) : ¬Plain (.pointer q) := by
  intro h
  have e := congrArg (fun q => q.path.length) (Value.pointer.inj h)
  simp [Renaming.deeper, Place.below] at e

theorem Plain.rename_same (h : v.Plain) : v.rename .same = v :=
  (rename_congr_of_fixed (ρ := .deeper) (σ := .same) (τ := .deeper) (fun _ e => e.symm)
    (fun _ _ => rfl) v h).trans h

theorem plain_assigned (path : List Access) {old new : Value} (hold : old.Plain) (hnew : new.Plain) :
    ((assignPath path new).apply old).2.Plain := by
  have alike := alike_assignPath (ρ := .deeper) path new old
  rw [hold, hnew] at alike
  exact (congrArg Prod.snd alike).symm

theorem Plain.atPath (h : v.Plain) (path : List Access) {u : Value} (hu : v.atPath path = .ok u) :
    u.Plain := by
  have natural : (v.rename .deeper).atPath path = rename .deeper <$> v.atPath path :=
    natural_atPath path v
  rw [h, hu] at natural
  exact (Except.ok.inj natural).symm

end Value

namespace Correspondence

variable {C : Correspondence} {v v' : Value}

/-- Nothing but pointers is told apart. -/
structure Faithful (C : Correspondence) : Prop where
  across : C.across = .same
  within : C.within = .deeper

theorem Faithful.values_iff (h : C.Faithful) : C.values v v' ↔ v' = v ∧ v.Plain := by
  unfold Correspondence.values
  rw [h.across, h.within]
  refine ⟨fun hv => ⟨hv.1.trans (Value.Plain.rename_same hv.2), hv.2⟩, ?_⟩
  rintro ⟨rfl, hv⟩
  exact ⟨hv.rename_same.symm, hv⟩

/-- An outcome without pointers stands for itself. -/
theorem Faithful.alike (h : C.Faithful) {r : Run Value} (hr : ∀ v, r = .ok v → v.Plain) :
    Run.Alike C.values r r := by
  cases r with
  | error e => rfl
  | ok v => exact ⟨v, rfl, h.values_iff.2 ⟨rfl, hr v rfl⟩⟩

theorem Faithful.not_pointer (h : C.Faithful) (q : Place) : ¬C.values (.pointer q) v' :=
  fun hv => Value.not_plain_pointer q (h.values_iff.1 hv).2

theorem alike_refl {α : Type} {Q : α → α → Prop} (hQ : ∀ a, Q a a) (r : Run α) :
    Run.Alike Q r r := by
  cases r with
  | error e => rfl
  | ok a => exact ⟨a, rfl, hQ a⟩

end Correspondence

/-- What is read off memory holds no pointer. -/
theorem Memory.plain_of_rename {r : Run Value} (h : ∀ ρ, rename ρ <$> r = r) {v : Value}
    (hv : r = .ok v) : v.Plain := by
  have same := h .deeper
  rw [hv] at same
  exact Except.ok.inj same

/-! ## Machines -/

/-- No scope binds a name to a pointer. -/
def ScopeArena.Plain (a : ScopeArena Slot) : Prop :=
  ∀ id name slot, a.findIn? id name = some slot → slot.Plain

namespace ScopeArena.Plain

variable {a : ScopeArena Slot} {id parent : ScopeId} {name : String} {slot : Slot}

theorem new : (ScopeArena.new : ScopeArena Slot).Plain := by
  intro id name slot h
  have hid : id < 1 := lt_depth_of_findIn? h
  obtain rfl : id = 0 := Nat.lt_one_iff.1 hid
  cases h

theorem insert (h : a.Plain) (hs : slot.Plain) : (a.insert id name slot).Plain := by
  intro k other u hu
  by_cases hne : k ≠ id ∨ other ≠ name
  · rw [findIn?_insert_of_ne hne] at hu
    exact h k other u hu
  · rw [not_or, not_not, not_not] at hne
    obtain ⟨rfl, rfl⟩ := hne
    have live := lt_depth_of_findIn? hu
    rw [depth_insert] at live
    rw [findIn?_insert_self live] at hu
    cases hu
    exact hs

theorem push (h : a.Plain) : (a.push parent).1.Plain := by
  intro k other u hu
  rw [findIn?_push] at hu
  exact h k other u hu

theorem pop (h : a.Plain) : (a.pop id).Plain := by
  intro k other u hu
  by_cases hin : 0 < id ∧ id < a.depth
  · have hk := lt_depth_of_findIn? hu
    rw [depth_pop hin.1 hin.2] at hk
    rw [findIn?_pop hk] at hu
    exact h k other u hu
  · rw [show a.pop id = a from if_neg hin] at hu
    exact h k other u hu

end ScopeArena.Plain

/-- No address is taken. -/
def AddressFree (ns : List Node) : Prop := ∀ k e, Node.expr (.unary k .addressOf e) ∉ ns

/-- A machine that holds no pointer. At module scope it knows the given names at most, and no variable
of the module takes an address. -/
structure Machine.Plain (names : String → Prop) (m : Machine) : Prop where
  callResults : m.callResults = []
  live : ScopeArena.root < m.scopes.depth
  slots : m.scopes.Plain
  root : ∀ name, m.scopes.Binds ScopeArena.root name → names name
  vars : ∀ v ∈ m.moduleVars, AddressFree v.nodes ∧ names v.name

/-- A run beside itself, at module scope or in another scope. It binds no name to a pointer, and none
but the given names at module scope. -/
def Correspondence.solo (names : String → Prop) : Correspondence where
  World := Option ScopeId
  lax := False
  across := .same
  within := .deeper
  rel w m m' := m' = m ∧ m.Plain names ∧ w ≠ some ScopeArena.root
  places _ q q' := q' = q
  scope w := w.getD ScopeArena.root
  scope' w := w.getD ScopeArena.root
  declare w _ := w
  sees _ _ := True
  free _ := True
  calls _ := True
  address := False
  declares w name := w = none → names name
  inner w := w ≠ none

namespace Machine

variable {m : Machine} {scope : ScopeId} {name : String} {v : Value} {q : Place}

theorem plain_slotValue {slot : Slot} (hs : slot.Plain) (h : m.slotValue slot = .ok v) : v.Plain := by
  cases slot with
  | value u =>
    cases h
    exact hs
  | view view => exact Memory.plain_of_rename (fun _ => Memory.plain_loadAt m.memory _ _ _) h

theorem plain_nameValue (hp : m.scopes.Plain) (h : m.nameValue scope name = .ok v) : v.Plain := by
  unfold nameValue at h
  cases hl : m.scopes.lookup scope name with
  | none =>
    rw [hl] at h
    cases h
  | some found =>
    rw [hl] at h
    exact plain_slotValue (hp _ _ _ (ScopeArena.findIn?_of_lookupWithin _ hl)) h

theorem plain_readPlace (hp : m.scopes.Plain) (h : m.readPlace q = .ok v) : v.Plain := by
  obtain ⟨root, path⟩ := q
  cases root with
  | buffer view => exact Memory.plain_of_rename (fun _ => Memory.plain_readPath m.memory view path) h
  | variable_ scope name =>
    unfold readPlace at h
    dsimp only at h
    cases hf : m.scopes.findIn? scope name with
    | none =>
      rw [hf] at h
      cases h
    | some slot =>
      rw [hf] at h
      cases slot with
      | value u => exact Value.Plain.atPath (hp scope name _ hf) path h
      | view view =>
        exact Memory.plain_of_rename (fun _ => Memory.plain_readPath m.memory view path) h

variable {names : String → Prop}

theorem Plain.bind (h : m.Plain names) {slot : Slot} (hs : slot.Plain)
    (hn : scope = ScopeArena.root → names name) : (m.bind scope name slot).Plain names :=
  { h with
    live := Nat.lt_of_lt_of_eq h.live ScopeArena.depth_insert.symm
    slots := h.slots.insert hs
    root := fun other hb => by
      obtain hb | ⟨hroot, rfl, -⟩ := ScopeArena.binds_insert.1 hb
      · exact h.root other hb
      · exact hn hroot.symm }

theorem Plain.writePlace (h : m.Plain names) (hv : v.Plain) :
    ((writePlace q v).apply m).2.Plain names := by
  obtain ⟨root, path⟩ := q
  cases root with
  | buffer view => exact { h with }
  | variable_ scope name =>
    cases hf : m.scopes.findIn? scope name with
    | none =>
      rw [writePlace_none hf]
      exact h
    | some slot =>
      cases slot with
      | value old =>
        rw [writePlace_value hf]
        refine h.bind (Value.plain_assigned path (h.slots scope name _ hf) hv) ?_
        rintro rfl
        exact h.root name (Option.isSome_of_eq_some hf)
      | view view =>
        rw [writePlace_view hf]
        exact { h with }

theorem Plain.push (h : m.Plain names) (parent : ScopeId) : (m.pushed parent).Plain names :=
  { h with
    live := Nat.lt_of_lt_of_eq (Nat.lt_succ_of_lt h.live) ScopeArena.depth_push.symm
    slots := h.slots.push
    root := fun name hb => h.root name (by
      change ((m.scopes.push parent).1.findIn? ScopeArena.root name).isSome = true at hb
      rwa [ScopeArena.findIn?_push] at hb) }

theorem Plain.pop (h : m.Plain names) (scope : ScopeId) : (m.popped scope).Plain names := by
  by_cases hin : 0 < scope ∧ scope < m.scopes.depth
  · have depth := ScopeArena.depth_pop hin.1 hin.2
    refine { h with
      live := Nat.lt_of_lt_of_eq hin.1 depth.symm
      slots := h.slots.pop
      root := fun name hb => h.root name ?_ }
    change ((m.scopes.pop scope).findIn? ScopeArena.root name).isSome = true at hb
    rwa [ScopeArena.findIn?_pop (k := ScopeArena.root) hin.1] at hb
  · have same : m.popped scope = m := by
      rw [Machine.popped, show m.scopes.pop scope = m.scopes from if_neg hin]
    rwa [same]

end Machine

/-! ## A run beside itself -/

namespace Correspondence

variable {names : String → Prop}

theorem faithful_solo : (solo names).Faithful := ⟨rfl, rfl⟩

/-- Reading what holds no pointer. -/
theorem evalSim_of_plain {p : Prop} {w : Option ScopeId} {x : Eval Value}
    {r : Machine → Run Value} (hx : ∀ m, x.run m = .ok (r m, m))
    (h : ∀ m v, m.scopes.Plain → r m = .ok v → v.Plain) :
    (solo names).EvalSim p w w (solo names).values x x := by
  refine evalSim_of_read hx hx fun _ m m' hm => ?_
  obtain ⟨rfl, hm, -⟩ := hm
  exact faithful_solo.alike fun v => h _ v hm.slots

/-- A fresh scope below another. -/
theorem opens_solo {w : Option ScopeId} {m m' : Machine} (h : (solo names).rel w m m')
    (parent : ScopeId) :
    (solo names).Opens w (some m.scopes.depth) parent parent m m' := by
  obtain ⟨rfl, hm, hw⟩ := h
  refine ⟨nofun, rfl, rfl, ⟨rfl, hm.push parent, ?_⟩, ?_⟩
  · exact fun e => Nat.ne_of_gt hm.live (Option.some.inj e)
  · rintro n n' ⟨rfl, hn, -⟩
    exact ⟨rfl, hn.pop _, hw⟩

/-- A run that takes no address stays beside itself. -/
theorem lawful_solo (names : String → Prop) : (solo names).Lawful where
  calm _ h := h.elim
  discarded h := congrArg Machine.discarded h.1
  callResults h := ⟨h.2.1.callResults, h.1 ▸ h.2.1.callResults⟩
  callDepth h := congrArg Machine.callDepth h.1
  withDepth n h := ⟨by rw [h.1], { h.2.1 with }, h.2.2⟩
  layouts h := congrArg Machine.layouts h.1
  withLayouts l h := ⟨by rw [h.1], { h.2.1 with }, h.2.2⟩
  reported e _ h := ⟨by rw [h.1], { h.2.1 with }, h.2.2⟩
  readName w name := evalSim_of_plain (Eval.readName_run _ name) fun _ _ => Machine.plain_nameValue
  placeOfName w name line := by
    refine evalSim_of_read (Eval.placeOfName_run _ name line) (Eval.placeOfName_run _ name line)
      fun _ m m' hm => ?_
    obtain ⟨rfl, -⟩ := hm
    exact alike_refl (Q := (solo names).places w) (fun _ => rfl) _
  readPlace w q q' := by
    refine evalSim_of_read (Eval.readPlace_run q) (Eval.readPlace_run q') fun hq m m' hm => ?_
    obtain ⟨rfl, hm, -⟩ := hm
    cases show q' = q from hq
    exact faithful_solo.alike fun v => Machine.plain_readPlace hm.slots
  writePlace w q q' v v' := by
    refine evalSim_of_change (Machine.diagnostics_writePlace q v) fun hp m m' hm => ?_
    obtain ⟨rfl, hm, hw⟩ := hm
    obtain ⟨rfl, hv⟩ := hp
    obtain ⟨rfl, hv⟩ := faithful_solo.values_iff.1 hv
    exact ⟨alike_refl (fun _ => trivial) _, rfl, hm.writePlace hv, hw⟩
  countAt w q q' := by
    refine evalSim_of_read (Eval.countAt_run q) (Eval.countAt_run q') fun hq m m' hm => ?_
    obtain ⟨rfl, -⟩ := hm
    cases show q' = q from hq
    exact alike_refl (fun _ => rfl) _
  below {w q q'} a h := congrArg (fun q : Place => q.below a) (show q' = q from h)
  ofPointer h := (faithful_solo.not_pointer _ h).elim
  toPointer h := h.elim
  texture h hm := by
    obtain ⟨rfl, -⟩ := hm
    rw [Value.texture.inj (faithful_solo.values_iff.1 h).1]
  onTexture w i i' c := by
    refine evalSim_of_change (fun _ => rfl) fun h m m' hm => ?_
    obtain ⟨rfl, hm, hw⟩ := hm
    cases Value.texture.inj (faithful_solo.values_iff.1 h).1
    exact ⟨alike_refl (fun _ => trivial) _, rfl, { hm with }, hw⟩
  bind {w} _ _ _ _ name hn hv hm := by
    obtain ⟨rfl, hm, hw⟩ := hm
    obtain ⟨rfl, hv⟩ := faithful_solo.values_iff.1 hv
    refine ⟨rfl, hm.bind hv fun hroot => ?_, hw⟩
    cases w with
    | none => exact hn rfl
    | some k => exact absurd (congrArg some hroot) hw
  weaken _ h := h
  scope_declare _ _ := rfl
  scope'_declare _ _ := rfl
  sees_declare _ h := h
  declares_inner _ h hroot := (h hroot).elim
  inner_declare _ h := h
  sees_declared _ _ := trivial
  everywhere scope := ⟨some scope, rfl, nofun, fun _ => trivial⟩
  opens h := ⟨_, opens_solo h _, fun _ hn => hn⟩
  enters h := ⟨_, opens_solo h _, fun _ hn => hn⟩
  discard _ h := ⟨by rw [h.1], { h.2.1 with }, h.2.2⟩

end Correspondence

/-! ## Shaders that take no address -/

/-- Where no address is taken, every node may run. -/
theorem AddressFree.admitted {C : Correspondence} {ns : List Node} (h : AddressFree ns)
    (hcalls : ∀ name, C.calls name) : ∀ n ∈ ns, n.Admitted C := by
  intro n hn
  match n with
  | .expr (.unary k op e) =>
    cases op with
    | addressOf => exact absurd hn (h k e)
    | _ => trivial
  | .expr (.call _ name _) => exact hcalls name
  | .expr (.literal ..) | .expr (.var ..) | .expr (.binary ..) | .expr (.construct ..)
  | .expr (.bitcast ..) | .expr (.index ..) | .expr (.member ..) | .expr (.group ..) => trivial
  | .type _ => trivial

theorem AddressFree.mono {ns ms : List Node} (h : AddressFree ns) (hms : ms ⊆ ns) :
    AddressFree ms := fun k e hn => h k e (hms hn)

/-- The body of no function takes an address. -/
def Shader.AddressFree (s : Shader) : Prop :=
  ∀ name f, s.function? name = some f → Wgsl.AddressFree (Stmt.listNodes f.body)

/-- Calls are followed where no address is taken. -/
theorem Shader.AddressFree.answers {s : Shader} (h : s.AddressFree) {C : Correspondence}
    (L : C.Lawful) (hcalls : ∀ name, C.calls name) (hfree : ∀ name, C.free name) (hlax : ¬C.lax) :
    C.Answers s (Eval.call s) (Eval.call s) := by
  refine Eval.answers_callWithin L (fun name f _ hf => ?_) maxCallDepth
  exact Stmt.allAdmitted_of_nodes f.body _ ⟨fun _ => True, True, True⟩ (fun n => .inl (hfree n))
    ((h name f hf).admitted hcalls) fun hl => absurd hl hlax

namespace Reflection

variable {p : Program}

theorem resourceOf_named (v : VarDecl) :
    LayoutM.Gives (resourceOf v) fun found => ∀ r ∈ found, r.name = v.name := by
  unfold resourceOf
  split
  · exact .pure fun _ h => by cases h
  · refine .bind fun type => ?_
    split
    · exact .pure fun _ h => by cases h
    · refine .bind fun group => .bind fun binding => .pure fun r hr => ?_
      cases hr
      rfl

/-- The resources of a module are among its variables. -/
theorem resources_named : LayoutM.Gives (ofProgram p) fun r =>
    ∀ x ∈ r.resources, x.name ∈ p.valueNames := by
  unfold ofProgram
  refine .bind fun structs => .bind fun aliases => ?_
  refine .bind_of (LayoutM.gives_mapM (P := fun d found => ∀ x ∈ found.1, ∃ v : VarDecl,
    d = .value .var v ∧ x.name = v.name) (fun d => ?_) p.declarations) fun found hfound => ?_
  · split
    · refine .bind_of (resourceOf_named _) fun found hfound => .pure fun x hx => ?_
      exact ⟨_, rfl, hfound x hx⟩
    · exact .bind fun _ => .pure nofun
    · exact .pure nofun
  · refine .bind fun l => .bind fun functions => .bind fun l => .pure fun x hx => ?_
    have bound : x ∈ found.filterMap Prod.fst := by
      simp only [resources, List.mem_append, List.mem_filter] at hx
      tauto
    obtain ⟨item, hitem, hx⟩ := List.mem_filterMap.1 bound
    obtain ⟨i, hi, rfl⟩ := List.getElem_of_mem hitem
    obtain ⟨v, hd, hname⟩ := (List.forall₂_iff_get.1 hfound).2 i (by rw [hfound.length_eq]; exact hi)
      hi x hx
    have declared : .value .var v ∈ p.declarations := hd ▸ List.get_mem _ _
    exact List.mem_filterMap.2 ⟨_, declared, congrArg some hname.symm⟩

end Reflection

theorem Shader.resources_named {p : Program} {s : Shader} {l : Layouts}
    (hp : ofProgram p = .ok (s, l)) : ∀ x ∈ s.reflection.resources, x.name ∈ p.valueNames := by
  unfold ofProgram at hp
  cases hr : (Reflection.ofProgram p).run (Layouts.ofProgram p) with
  | error e =>
    rw [hr] at hp
    cases hp
  | ok r =>
    rw [hr] at hp
    cases hp
    exact Reflection.resources_named _ _ _ hr

section

variable {p : Program} {s : Shader} {l : Layouts} {config : Config}

/-- What the machine of a module may look like when no address is taken. -/
abbrev Machine.PlainIn (p : Program) (m : Machine) : Prop := m.Plain fun n => n ∈ p.valueNames

/-- A run of a module beside itself. -/
abbrev Program.solo (p : Program) : Correspondence := Correspondence.solo fun n => n ∈ p.valueNames

theorem Declaration.addressFree (hfree : AddressFree p.nodes) {d : Declaration}
    (hd : d ∈ p.declarations) : AddressFree d.nodes :=
  hfree.mono (Program.nodes_subset hd)

theorem Function.addressFree (hp : Shader.ofProgram p = .ok (s, l)) (hfree : AddressFree p.nodes)
    {name : String} {f : Function} (hf : s.function? name = some f) : AddressFree f.nodes :=
  hfree.mono (Program.nodes_subset_of_function (Shader.mem_of_function? hp hf).1)

variable (hp : Shader.ofProgram p = .ok (s, l)) (hfree : AddressFree p.nodes)

include hp hfree

theorem Program.answers_solo : p.solo.Answers s (Eval.call s) (Eval.call s) := by
  have free : s.AddressFree := fun name f hf =>
    (Function.addressFree hp hfree hf).mono (List.subset_append_right _ _)
  exact free.answers (lawful_solo _) (fun _ => trivial) (fun _ => trivial) id

/-- A declaration binds its name to no pointer. -/
theorem Program.sim_declaration {q : Prop} {d : Declaration} (hd : d ∈ p.declarations) :
    p.solo.Sim q none none (fun _ _ => True) (Exec.declaration s config d)
      (Exec.declaration s config d) := by
  have L := lawful_solo fun n => n ∈ p.valueNames
  have hcall := p.answers_solo hp hfree
  have free := Declaration.addressFree hfree hd
  have hS : ∀ n, True → p.solo.sees none n := fun _ h => h
  refine sim_reporting L d.line ?_
  cases d with
  | value kind v =>
    have named : v.name ∈ p.valueNames := List.mem_filterMap.2 ⟨_, hd, rfl⟩
    have admitted := VarDecl.admitted_of_nodes (C := p.solo) (S := fun _ => True) (fun _ => trivial)
      (free.admitted fun _ => trivial)
    have declared : ∀ q : Prop, p.solo.EvalSim q none none (fun _ _ => True)
        (Eval.declare s (Eval.call s) ScopeArena.root v)
        (Eval.declare s (Eval.call s) ScopeArena.root v) := fun q =>
      Eval.evalSim_declare (w := none) L hcall hS (fun _ => named) admitted
    cases kind with
    | const => exact declared q
    | override => exact evalSim_declareOverride L rfl rfl hcall hS (fun _ => named) admitted
    | var =>
      rw [Eval.declaration]
      split
      · have added : p.solo.EvalSim q none none (fun _ _ => True)
            (Eval.ofExec (modify fun m => { m with moduleVars := m.moduleVars ++ [v] }))
            (Eval.ofExec (modify fun m => { m with moduleVars := m.moduleVars ++ [v] })) := by
          refine evalSim_ofExec (sim_modify (fun _ => rfl) fun _ m m' hm => ?_)
          obtain ⟨rfl, hm, hw⟩ := hm
          refine ⟨rfl, { hm with vars := ?_ }, hw⟩
          exact List.forall_mem_append.2 ⟨hm.vars, List.forall_mem_singleton.2 ⟨free, named⟩⟩
        exact evalSim_bind added fun _ _ => declared _
      · exact evalSim_pure fun _ => trivial
  | constAssert e =>
    exact Eval.evalSim_constAssert (w := none) L hcall hS
      (e.admitted_of_nodes (fun _ => trivial) (free.admitted fun _ => trivial))
  | _ => exact evalSim_pure fun _ => trivial

end

/-! ## Getting a dispatch ready -/

theorem Machine.plain_reset (names : String → Prop) (m : Machine) : m.reset.Plain names where
  callResults := rfl
  live := Nat.zero_lt_one
  slots := .new
  root name h := by
    cases h
  vars := nofun

theorem Machine.plain_bindResource {names : String → Prop} {m : Machine} (h : m.Plain names)
    {r : Resource} (hr : names r.name) (g : BindGroups) : (m.bindResource r g).1.Plain names := by
  have bound : ∀ (memory : Memory) (bound : List Bound) {slot : Slot}, slot.Plain →
      ({ m with memory, bound }.bind ScopeArena.root r.name slot).Plain names :=
    fun memory bound _ hs => Plain.bind (m := { m with memory, bound }) { h with } hs fun _ => hr
  have view : ∀ v, (Slot.view v).Plain := fun _ => trivial
  have texture : ∀ id, (Slot.value (.texture id)).Plain := Value.rename_texture
  have sampler : (Slot.value .sampler).Plain := Value.rename_sampler
  unfold bindResource
  dsimp only
  cases r.kind <;> rcases g.find? ⟨r.group, r.binding⟩ with _ | ⟨_ | _ | _ | _⟩ <;>
    first
    | exact h
    | exact bound _ _ (view _)
    | exact bound _ _ (texture _)
    | exact bound _ _ sampler

theorem Machine.plain_bindResources {names : String → Prop} {resources : List Resource}
    {m : Machine} (h : m.Plain names) (hr : ∀ r ∈ resources, names r.name) (g : BindGroups) :
    (m.bindResources resources g).1.Plain names := by
  induction resources generalizing m g with
  | nil => exact h
  | cons r resources ih =>
    refine ih (plain_bindResource h (hr r List.mem_cons_self) g) ?_ _
    exact fun r hr' => hr r (List.mem_cons_of_mem _ hr')

section

variable {p : Program} {s : Shader} {l : Layouts} {config : Config} {m m₁ : Machine}
  (hp : Shader.ofProgram p = .ok (s, l)) (hfree : AddressFree p.nodes)

include hp hfree

/-- The module is started without a pointer. -/
theorem Attempt.plain_started {entry : String} {f : Function} {size : Extent}
    (h : (started s entry config).run m = .ok (.ok (f, size), m₁)) :
    m₁.PlainIn p ∧ s.function? entry = some f := by
  have L := lawful_solo fun n => n ∈ p.valueNames
  have hcall := p.answers_solo hp hfree
  obtain ⟨hprogram, -, -⟩ := Shader.ofProgram_ok hp
  obtain ⟨m', run, h⟩ := Bridge.started_ok h
  rw [hprogram] at run
  have declared : p.solo.Tracks none none Eq (p.declarations.forM (Exec.declaration s config))
      (p.declarations.forM (Exec.declaration s config)) :=
    tracks_forM _ fun d hd => tracks_unit (Sim.tracks (fun h => h) (p.sim_declaration hp hfree hd))
  have started := Bridge.related_self declared ⟨rfl, Machine.plain_reset _ m, nofun⟩ run
  have entered := tracks_entryPoint L (fun h => h) (w := none) (S := fun _ => True) rfl rfl hcall
    (fun _ h => h) entry fun f hf a ha e he => ?_
  · exact ⟨(Bridge.related_self entered started h).2.1, Bridge.function?_of_entryPoint h⟩
  · have free := Function.addressFree hp hfree hf
    have held : e.nodes ⊆ f.nodes := fun n hn => List.mem_append_left _
      (List.mem_append_right _ (Attribute.nodes_subset (List.mem_of_find?_eq_some ha) he hn))
    exact e.admitted_of_nodes (fun _ => trivial)
      (AddressFree.admitted (free.mono held) fun _ => trivial)

/-- A dispatch that can start has bound no name to a pointer. -/
theorem Attempt.plain_prepare {entry : String} {workgroups : Extent} {g rest : BindGroups}
    {plan : DispatchPlan}
    (h : (prepare s entry workgroups g config).run m = .ok (.ok (plan, rest), m₁)) :
    m₁.PlainIn p ∧ s.function? entry = some plan.entry := by
  obtain ⟨m', hstarted, hbound⟩ := Bridge.prepare_ok h
  obtain ⟨plain, hf⟩ := plain_started hp hfree hstarted
  have bound := Machine.plain_bindResources plain (Shader.resources_named hp) g
  rw [hbound] at bound
  exact ⟨bound, hf⟩

/-- The variables of the module get their initial values again. -/
theorem Exec.plain_resetVariables {newWorkgroup : Bool} (hm : m.PlainIn p)
    (h : resetVariables s newWorkgroup m = .ok (⟨⟩, m₁)) : m₁.PlainIn p := by
  have L := lawful_solo fun n => n ∈ p.valueNames
  have hcall := p.answers_solo hp hfree
  have declared : p.solo.Tracks none none Eq
      ((m.moduleVars.filter fun v => newWorkgroup || v.storage != some "workgroup").forM fun v =>
        reporting v.line (Eval.declare s (Eval.call s) ScopeArena.root v))
      ((m.moduleVars.filter fun v => newWorkgroup || v.storage != some "workgroup").forM fun v =>
        reporting v.line (Eval.declare s (Eval.call s) ScopeArena.root v)) := by
    refine tracks_forM _ fun v hv => tracks_unit (Sim.tracks (fun h => h) ?_)
    obtain ⟨free, named⟩ := hm.vars v (List.mem_of_mem_filter hv)
    exact sim_reporting L v.line (Eval.evalSim_declare (w := none) L hcall (fun _ h => h)
      (fun _ => named) (VarDecl.admitted_of_nodes (C := p.solo) (S := fun _ => True)
        (fun _ => trivial) (free.admitted fun _ => trivial)))
  exact (Bridge.related_self declared ⟨rfl, hm, nofun⟩ h).2.1

omit hp hfree in
/-- The built-in values of an invocation are no pointers. -/
theorem Eval.evalSim_builtinValue {q : Prop} {w : Option ScopeId} (name : String) :
    p.solo.EvalSim q w w p.solo.values (builtinValue (p.solo.scope w) name)
      (builtinValue (p.solo.scope' w) name) := by
  refine evalSim_of_plain (Bridge.builtinValue_run _ name) fun m v hm hv => ?_
  unfold Bridge.boundValue at hv
  split at hv
  · rename_i u hu
    cases hv
    exact hm _ _ _ hu
  · cases hv

/-- The arguments of an entry point are bound to no pointers. -/
theorem Exec.plain_beginInvocation {plan : DispatchPlan} {index : Nat} {scope : ScopeId}
    (hm : m.PlainIn p) (h : beginInvocation s plan index m = .ok (scope, m₁)) : m₁.PlainIn p := by
  have L := lawful_solo fun n => n ∈ p.valueNames
  have hplain := fun ρ => Bridge.rename_builtins ρ (plan.invocation index) plan.workgroups
  unfold beginInvocation at h
  generalize (plan.invocation index).builtins plan.workgroups = builtins at h hplain
  obtain ⟨_, m₂, h₂, h⟩ := bind_ok h
  obtain ⟨_, m₃, h₃, h⟩ := bind_ok h
  obtain ⟨scope', m₄, h₄, h⟩ := bind_ok h
  obtain ⟨_, m₅, h₅, h⟩ := bind_ok h
  obtain ⟨_, m₆, h₆, hend⟩ := bind_ok h
  have hm₂ := plain_resetVariables hp hfree hm h₂
  have hm₃ : m₃.PlainIn p := by
    cases h₃
    exact { hm₂ with }
  obtain ⟨hscope, rfl⟩ : scope' = m₃.scopes.depth ∧ m₄ = m₃.pushed ScopeArena.root := by
    cases h₄
    exact ⟨rfl, rfl⟩
  obtain ⟨rfl, rfl⟩ : scope' = scope ∧ m₆ = m₁ := by
    cases hend
    exact ⟨rfl, rfl⟩
  have opened : p.solo.rel (some scope') (m₃.pushed ScopeArena.root) (m₃.pushed ScopeArena.root) := by
    rw [hscope]
    exact (opens_solo (w := none) ⟨rfl, hm₃, nofun⟩ ScopeArena.root).opened
  have named : p.solo.Tracks (some scope') (some scope') Eq
      (builtins.forM fun x => bind scope' x.1 (.value x.2))
      (builtins.forM fun x => bind scope' x.1 (.value x.2)) := by
    refine tracks_forM _ fun x hx => tracks_modify fun n n' hn => ?_
    exact L.bind (w := some scope') x.1 nofun
      (values_plain_self fun ρ => hplain ρ x hx) hn
  have bound : p.solo.Tracks (some scope') (some scope') Eq
      (plan.entry.args.forM (bindArgument s plan.entry scope'))
      (plan.entry.args.forM (bindArgument s plan.entry scope')) := by
    refine tracks_forM _ fun arg _ => tracks_unit (Sim.tracks (fun h => h) ?_)
    exact sim_bindArgument L (w := some scope') (fun _ => Eval.evalSim_builtinValue) plan.entry nofun
  have started := Bridge.related_self named opened h₅
  exact (Bridge.related_self bound started h₆).2.1

end

/-! ## The names of an invocation -/

section

variable {s : Shader} {plan : DispatchPlan} {scope : ScopeId} {m m₁ : Machine}
  {allowed : String → Prop}

/-- What every step keeps is kept by all of them. -/
theorem Exec.forM_keeps {β : Type} {F : β → Exec PUnit} {P : Machine → Prop} {items : List β}
    (hF : ∀ b ∈ items, ∀ m m₁, P m → F b m = .ok (⟨⟩, m₁) → P m₁) (hm : P m)
    (h : items.forM F m = .ok (⟨⟩, m₁)) : P m₁ := by
  induction items generalizing m with
  | nil =>
    cases h
    exact hm
  | cons b items ih =>
    rw [List.forM_eq_forM, List.forM_cons] at h
    obtain ⟨⟨⟩, m', hb, h⟩ := bind_ok h
    exact ih (fun c hc => hF c (List.mem_cons_of_mem _ hc)) (hF b List.mem_cons_self m m' hm hb) h

/-- A scope is open and binds none but the allowed names. -/
def Machine.BindsOnly (scope : ScopeId) (allowed : String → Prop) (m : Machine) : Prop :=
  0 < m.scopes.depth ∧ ∀ name, m.scopes.Binds scope name → allowed name

theorem Machine.BindsOnly.bind (h : m.BindsOnly scope allowed) {name : String} (hn : allowed name)
    (slot : Slot) : (m.bind scope name slot).BindsOnly scope allowed := by
  refine ⟨Nat.lt_of_lt_of_eq h.1 ScopeArena.depth_insert.symm, fun other hb => ?_⟩
  obtain hb | ⟨-, rfl, -⟩ := ScopeArena.binds_insert.1 hb
  · exact h.2 other hb
  · exact hn

theorem Exec.bindsOnly_bindArgument {entry : Function} {arg : Field} (hn : allowed arg.name)
    (hm : m.BindsOnly scope allowed) (h : bindArgument s entry scope arg m = .ok (⟨⟩, m₁)) : m₁.BindsOnly scope allowed := by
  obtain ⟨outcome, m', hx, h⟩ := bind_ok h
  have quiet : Conduct.stack.quiet
      (Eval.argument s scope (s.program.structs.length + 1) arg.attributes arg.type).run :=
    Conduct.eval_argument (Conduct.stack_admitsShader s) _ _ trivial
  have kept := quiet m outcome m' hm.1 hx
  have hm' : m'.BindsOnly scope allowed :=
    ⟨kept.depth ▸ hm.1, fun name hb => hm.2 name ((kept.names scope name nofun).1 hb)⟩
  cases outcome with
  | ok v =>
    cases h
    exact hm'.bind hn _
  | error e =>
    cases h
    exact Machine.BindsOnly.bind (m := { m' with diagnostics := m'.diagnostics.push _ }) hm' hn _

/-- The scope of an invocation binds the built-in values and the arguments. -/
theorem Exec.bindsOnly_beginInvocation {index : Nat}
    (h : beginInvocation s plan index m = .ok (scope, m₁)) : m₁.BindsOnly scope fun name =>
      name ∈ Invocation.builtinNames ∨ name ∈ plan.entry.args.map Field.name := by
  have hnames := Invocation.builtins_names (plan.invocation index) plan.workgroups
  unfold beginInvocation at h
  generalize (plan.invocation index).builtins plan.workgroups = builtins at h hnames
  obtain ⟨_, m₂, h₂, h⟩ := bind_ok h
  obtain ⟨_, m₃, h₃, h⟩ := bind_ok h
  obtain ⟨scope', m₄, h₄, h⟩ := bind_ok h
  obtain ⟨_, m₅, h₅, h⟩ := bind_ok h
  obtain ⟨_, m₆, h₆, hend⟩ := bind_ok h
  obtain ⟨rfl, rfl⟩ : scope' = scope ∧ m₆ = m₁ := by
    cases hend
    exact ⟨rfl, rfl⟩
  obtain ⟨rfl, rfl⟩ : scope' = m₃.scopes.depth ∧ m₄ = m₃.pushed ScopeArena.root := by
    cases h₄
    exact ⟨rfl, rfl⟩
  have opened : (m₃.pushed ScopeArena.root).BindsOnly m₃.scopes.depth fun name =>
      name ∈ Invocation.builtinNames ∨ name ∈ plan.entry.args.map Field.name := by
    refine ⟨ScopeArena.depth_push ▸ Nat.succ_pos _, fun name hb => ?_⟩
    change ((m₃.scopes.push ScopeArena.root).1.findIn? m₃.scopes.depth name).isSome = true at hb
    rw [ScopeArena.findIn?_push, ScopeArena.findIn?_of_depth_le (Nat.le_refl _)] at hb
    cases hb
  have named := forM_keeps (fun b hb n n₁ hn he => ?_) opened h₅
  · refine forM_keeps (fun arg ha n n₁ hn he => ?_) named h₆
    exact bindsOnly_bindArgument (Or.inr (List.mem_map_of_mem ha)) hn he
  · cases he
    exact hn.bind (Or.inl (hnames ▸ List.mem_map_of_mem hb)) _

end

end Wgsl
