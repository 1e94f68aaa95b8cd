import Wgsl.Machine
import Wgsl.Proofs.Layout.Settled
import Wgsl.Proofs.Reflect.Reachable
import Wgsl.Proofs.Reflect.Scan

/-! # What reflection says about the bodies that can run

Reflection scans each body by itself and joins the scans of all functions that can be reached. A
resource that is not among those of a function is read in none of the bodies that the function can
get to.

* `Reflection.ofProgram_ok`: what reflecting a program puts together.
* `Shader.hidden`: the resources that a function is not found to mention.
* `Shader.body_admitted`: such a body may run where these are hidden.
-/

namespace Wgsl
set_option autoImplicit false

open Correspondence

/-! ## What laying out gives -/

namespace LayoutM

variable {α β : Type}

/-- Whatever the computation gives satisfies the property. -/
def Gives (x : LayoutM α) (P : α → Prop) : Prop := ∀ l a l', x.run l = .ok (a, l') → P a

theorem Gives.pure {P : α → Prop} {a : α} (h : P a) : Gives (pure a) P := by
  intro l b l' e
  cases e
  exact h

theorem Gives.bind {x : LayoutM α} {f : α → LayoutM β} {P : β → Prop} (h : ∀ a, Gives (f a) P) :
    Gives (x >>= f) P := by
  intro l b l' e
  obtain ⟨a, l₁, -, e⟩ := bind_ok e
  exact h a l₁ b l' e

theorem Gives.bind_of {x : LayoutM α} {f : α → LayoutM β} {P : α → Prop} {Q : β → Prop}
    (hx : Gives x P) (h : ∀ a, P a → Gives (f a) Q) : Gives (x >>= f) Q := by
  intro l b l' e
  obtain ⟨a, l₁, ha, e⟩ := bind_ok e
  exact h a (hx l a l₁ ha) l₁ b l' e

/-- Each result is what the item at its place gives. -/
theorem gives_mapM {f : α → LayoutM β} {P : α → β → Prop} (hf : ∀ a, Gives (f a) (P a))
    (items : List α) : Gives (items.mapM f) (List.Forall₂ P items) := by
  intro l found l' h
  induction items generalizing l found with
  | nil =>
    rw [List.mapM_nil] at h
    cases h
    exact .nil
  | cons a items ih =>
    rw [List.mapM_cons] at h
    obtain ⟨b, l₁, hb, h⟩ := bind_ok h
    obtain ⟨rest, l₃, hrest, h⟩ := bind_ok h
    cases h
    exact .cons (hf a l b l₁ hb) (ih l₁ rest hrest)

end LayoutM

/-! ## What reflecting puts together -/

namespace Reflection

variable {p : Program}

/-- The scans of all bodies; the last function of a name counts. -/
def scans (watched : Watched) (p : Program) : Table BodyScan :=
  p.functions.foldl
    (fun (t : Table BodyScan) f => t.insert f.name (BodyScan.ofFunction watched f)) []

/-- The resources that a function or anything it calls mentions. -/
def mentioned (watched : Watched) (p : Program) (name : String) : List String :=
  (((CallGraph.ofProgram p).transitive name).reverse.filterMap (scans watched p).find?).foldl
    (fun names s => union names s.resources) []

/-- The outcome of reflecting the function names all resources that it can get to. -/
def Describes (watched : Watched) (p : Program) (f : Function) (info : FunctionInfo) : Prop :=
  info.name = f.name ∧ info.resources = mentioned watched p f.name

theorem functionOf_gives {resources : List Resource} {watched : Watched} {running : List String}
    (f : Function) :
    LayoutM.Gives (functionOf p resources (CallGraph.ofProgram p) (scans watched p) running f)
      (Describes watched p f) := by
  rw [functionOf_eq]
  refine .bind fun args => .bind fun returnType => .bind fun inputs => .bind fun outputs =>
    .bind fun size => ?_
  split
  · exact .bind fun _ => .pure ⟨rfl, rfl⟩
  · exact .pure ⟨rfl, rfl⟩

/-- The outcome of reflecting the program describes each of its functions. -/
theorem ofProgram_gives : LayoutM.Gives (ofProgram p) fun r =>
    ∃ watched : Watched, watched.resources = r.resources.map Resource.name ∧
      List.Forall₂ (Describes watched p) p.functions r.functions := by
  unfold ofProgram
  refine .bind fun structs => .bind fun aliases => .bind fun found => .bind fun l => ?_
  refine .bind_of (LayoutM.gives_mapM functionOf_gives p.functions) fun functions hf => ?_
  refine .bind fun l => .pure ⟨_, ?_, hf⟩
  rfl

theorem mem_union {names more : List String} {x : String} :
    x ∈ union names more ↔ x ∈ names ∨ x ∈ more := by
  unfold union
  induction more generalizing names with
  | nil => simp
  | cons y more ih =>
    rw [List.foldl_cons, ih, List.mem_cons, CallGraph.addOnce]
    split
    · rename_i h
      rw [List.contains_iff_mem] at h
      grind
    · grind

theorem mem_foldl_union {part : BodyScan → List String} {ss : List BodyScan} {names : List String}
    {x : String} : x ∈ ss.foldl (fun names s => union names (part s)) names ↔
      x ∈ names ∨ ∃ s ∈ ss, x ∈ part s := by
  induction ss generalizing names with
  | nil => simp
  | cons s ss ih =>
    rw [List.foldl_cons, ih, mem_union]
    simp [or_assoc]

/-- What the scan of a function notes is mentioned by every function that gets there. -/
theorem mem_mentioned {watched : Watched} {start name : String} {scan : BodyScan} {x : String}
    (hname : name ∈ (CallGraph.ofProgram p).transitive start)
    (hscan : (scans watched p).find? name = some scan) (hx : x ∈ scan.resources) :
    x ∈ mentioned watched p start := by
  refine mem_foldl_union.2 (Or.inr ⟨scan, ?_, hx⟩)
  exact List.mem_filterMap.2 ⟨name, List.mem_reverse.2 hname, hscan⟩

end Reflection

/-! ## Tables of functions -/

/-- Tables that are filled alike hold corresponding values. -/
theorem Table.find?_foldl_insert {α β : Type} (g : Function → α) (h : α → β) (name : String)
    (functions : List Function) {t : Table α} {u : Table β}
    (htu : u.find? name = (t.find? name).map h) :
    (functions.foldl (fun (u : Table β) f => u.insert f.name (h (g f))) u).find? name =
      ((functions.foldl (fun (t : Table α) f => t.insert f.name (g f)) t).find? name).map h := by
  induction functions generalizing t u with
  | nil => exact htu
  | cons f functions ih =>
    refine ih ?_
    by_cases hn : name = f.name
    · subst hn
      rw [find?_insert_self, find?_insert_self, Option.map_some]
    · rw [find?_insert_of_ne _ _ hn, find?_insert_of_ne _ _ hn, htu]

/-- What is found in such a table was entered for a function of that name. -/
theorem Table.mem_of_find?_foldl_insert {name : String} {f : Function} (functions : List Function)
    {t : Table Function} (ht : ∀ f, t.find? name = some f → f.name = name)
    (hf : (functions.foldl (fun (t : Table Function) f => t.insert f.name f) t).find? name = some f) :
    (f ∈ functions ∨ t.find? name = some f) ∧ f.name = name := by
  induction functions generalizing t with
  | nil => exact ⟨Or.inr hf, ht f hf⟩
  | cons first functions ih =>
    by_cases hn : name = first.name
    · have found : (t.insert first.name first).find? name = some first := by
        rw [hn, find?_insert_self]
      obtain ⟨hmem, hname⟩ := ih (fun f h => by rw [found] at h; cases h; exact hn.symm) hf
      refine ⟨Or.inl ?_, hname⟩
      obtain hmem | hmem := hmem
      · exact List.mem_cons_of_mem _ hmem
      · rw [found] at hmem
        cases hmem
        exact List.mem_cons_self
    · have same : (t.insert first.name first).find? name = t.find? name := find?_insert_of_ne _ _ hn
      obtain ⟨hmem, hname⟩ := ih (fun f h => ht f (same ▸ h)) hf
      rw [same] at hmem
      exact ⟨hmem.imp (List.mem_cons_of_mem _) id, hname⟩

/-! ## Scans without hidden names -/

namespace BodyScan

variable {w : Watched} {s : BodyScan} {x : String}

theorem step_variable (name : String) : step w s (.variable_ name) =
    if s.isShadowed name then s
    else { s with
      resources := note w.resources s.resources name
      overrides := note w.overrides s.overrides name } := rfl

theorem locals_step (m : Mention) : (step w s m).locals = m.locals s.locals := by
  cases m with
  | declare name =>
    unfold step Mention.locals Locals.declare
    cases s.locals <;> rfl
  | variable_ name =>
    rw [step_variable]
    split <;> rfl
  | _ => rfl

theorem mem_note {watched found : List String} {name : String} (h : x ∈ found) :
    x ∈ note watched found name := by
  unfold note CallGraph.addOnce
  split
  · split
    · exact h
    · exact List.mem_append_left _ h
  · exact h

theorem mem_note_self {watched found : List String} (h : x ∈ watched) : x ∈ note watched found x := by
  unfold note CallGraph.addOnce
  rw [if_pos (List.contains_iff_mem.2 h)]
  split
  · exact List.contains_iff_mem.1 ‹_›
  · exact List.mem_append_right _ List.mem_cons_self

theorem mem_resources_step (m : Mention) (h : x ∈ s.resources) : x ∈ (step w s m).resources := by
  cases m with
  | variable_ name =>
    rw [step_variable]
    split
    · exact h
    · exact mem_note h
  | _ => exact h

theorem mem_resources_foldl (ms : List Mention) (h : x ∈ s.resources) :
    x ∈ (ms.foldl (step w) s).resources := by
  induction ms generalizing s with
  | nil => exact h
  | cons m ms ih => exact ih (mem_resources_step m h)

/-- Where a scan notes nothing hidden, every name that it has met holds locally or is not hidden. -/
theorem allowed {hidden : List String} {calls : String → Prop} (hw : ∀ x ∈ hidden, x ∈ w.resources)
    (ms : List Mention) (hs : ∀ x ∈ (ms.foldl (step w) s).resources, x ∉ hidden)
    (hc : ∀ name, Mention.call name ∈ ms → calls name) :
    Mention.Allowed hidden calls s.locals ms := by
  induction ms generalizing s with
  | nil => trivial
  | cons m ms ih =>
    have rest := ih (s := step w s m) hs fun name h => hc name (List.mem_cons_of_mem _ h)
    rw [locals_step] at rest
    refine ⟨?_, rest⟩
    cases m with
    | call name => exact hc name List.mem_cons_self
    | variable_ name =>
      by_cases hsh : s.isShadowed name = true
      · unfold isShadowed at hsh
        obtain ⟨scope, hscope, hin⟩ := List.any_eq_true.1 hsh
        exact Or.inr ⟨scope, hscope, List.contains_iff_mem.1 hin⟩
      · refine Or.inl fun hname => hs name (mem_resources_foldl ms ?_) hname
        rw [step_variable, if_neg hsh]
        exact mem_note_self (hw name hname)
    | _ => trivial

end BodyScan

namespace CallGraph

theorem mem_addOnce {names : List String} {name x : String} :
    x ∈ addOnce names name ↔ x ∈ names ∨ x = name := by
  unfold addOnce
  split
  · rename_i h
    rw [List.contains_iff_mem] at h
    grind
  · rw [List.mem_append, List.mem_singleton]

theorem mem_foldl_callees {known : List String} {name : String} (hk : name ∈ known)
    (ms : List Mention) (found : List String) (h : name ∈ found ∨ Mention.call name ∈ ms) :
    name ∈ ms.foldl (fun found m =>
      match m with
      | .call name => if known.contains name then addOnce found name else found
      | _ => found) found := by
  induction ms generalizing found with
  | nil => exact h.resolve_right List.not_mem_nil
  | cons m ms ih =>
    refine ih _ ?_
    rw [List.mem_cons] at h
    obtain h | rfl | h := h
    · left
      cases m with
      | call other =>
        dsimp only
        split
        · exact mem_addOnce.2 (Or.inl h)
        · exact h
      | _ => exact h
    · left
      dsimp only
      rw [if_pos (List.contains_iff_mem.2 hk)]
      exact mem_addOnce.2 (Or.inr rfl)
    · exact Or.inr h

/-- A known function that a body calls is among its callees. -/
theorem mem_callees {known : List String} {f : Function} {name : String} (hk : name ∈ known)
    (h : Mention.call name ∈ f.mentions) : name ∈ callees known f :=
  mem_foldl_callees hk f.mentions [] (Or.inr h)

end CallGraph

/-! ## The bodies of a shader -/

theorem Reflection.resourceNamed?_of_mem {r : Reflection} {name : String}
    (h : name ∈ r.resources.map Resource.name) :
    ∃ v, r.resourceNamed? name = some v ∧ v.name = name := by
  obtain ⟨v, hv, hname⟩ := List.mem_map.1 h
  obtain ⟨u, hu⟩ := Option.isSome_iff_exists.1
    (List.find?_isSome (p := fun v => decide (v.name = name)).2 ⟨v, hv, decide_eq_true hname⟩)
  exact ⟨u, hu, of_decide_eq_true (List.find?_some (p := fun v : Resource => decide (v.name = name)) hu)⟩

namespace Shader

open Reflection (Describes mentioned scans)

variable {p : Program} {s : Shader} {l : Layouts} {name : String} {f : Function}

/-- The names of the resources that a function is not found to mention. -/
def hidden (s : Shader) (name : String) : List String :=
  (s.reflection.resources.map Resource.name).filter fun x =>
    !((s.reflection.functionResources name).map Resource.name).contains x

theorem mem_hidden {entry x : String} : x ∈ s.hidden entry ↔
    x ∈ s.reflection.resources.map Resource.name ∧
      x ∉ (s.reflection.functionResources entry).map Resource.name := by
  unfold hidden
  rw [List.mem_filter, Bool.not_eq_true', ← Bool.not_eq_true, List.contains_iff_mem]

/-- The shader of a program: its functions by name, and a description of each. -/
theorem ofProgram_ok (h : ofProgram p = .ok (s, l)) : s.program = p ∧
    s.functions = p.functions.foldl (fun (t : Table Function) f => t.insert f.name f) [] ∧
    ∃ watched : Watched, watched.resources = s.reflection.resources.map Resource.name ∧
      List.Forall₂ (Describes watched p) p.functions s.reflection.functions := by
  unfold ofProgram at h
  cases hr : (Reflection.ofProgram p).run (Layouts.ofProgram p) with
  | error e =>
    rw [hr] at h
    cases h
  | ok r =>
    rw [hr] at h
    cases h
    exact ⟨rfl, rfl, Reflection.ofProgram_gives _ _ _ hr⟩

theorem mem_of_function? (h : ofProgram p = .ok (s, l)) (hf : s.function? name = some f) :
    f ∈ p.functions ∧ f.name = name := by
  obtain ⟨-, hfunctions, -⟩ := ofProgram_ok h
  unfold function? at hf
  rw [hfunctions] at hf
  have hnone : Table.find? ([] : Table Function) name = none := Table.find?_nil name
  obtain ⟨hmem, hname⟩ := Table.mem_of_find?_foldl_insert p.functions
    (fun f h => by rw [hnone] at h; cases h) hf
  refine ⟨hmem.resolve_right fun h => ?_, hname⟩
  rw [hnone] at h
  cases h

theorem find?_of_describes {watched : Watched} {functions : List Function}
    {infos : List FunctionInfo} (h : List.Forall₂ (Describes watched p) functions infos)
    (hf : f ∈ functions) : ∃ info, infos.find? (fun i => i.name = f.name) = some info ∧
      info.resources = mentioned watched p f.name := by
  induction h with
  | nil => cases hf
  | @cons first info functions infos hfirst hrest ih =>
    by_cases hn : info.name = f.name
    · refine ⟨info, List.find?_cons_of_pos (by simpa using hn), ?_⟩
      rw [hfirst.2, ← hfirst.1, hn]
    · obtain rfl | hf := List.mem_cons.1 hf
      · exact absurd hfirst.1 hn
      · obtain ⟨found, hfound⟩ := ih hf
        exact ⟨found, by rw [List.find?_cons_of_neg (by simpa using hn)]; exact hfound.1, hfound.2⟩

/-- What is hidden from a function is mentioned by nothing that it can call. -/
theorem not_mem_hidden (h : ofProgram p = .ok (s, l)) {entry : String} {f : Function}
    (hentry : s.function? entry = some f) : ∃ watched : Watched,
    watched.resources = s.reflection.resources.map Resource.name ∧
      ∀ x ∈ mentioned watched p entry, x ∉ s.hidden entry := by
  obtain ⟨-, -, watched, hwatched, hdescribed⟩ := ofProgram_ok h
  refine ⟨watched, hwatched, fun x hx hhidden => ?_⟩
  obtain ⟨hmem, rfl⟩ := mem_of_function? h hentry
  obtain ⟨info, hinfo, hresources⟩ := find?_of_describes hdescribed hmem
  obtain ⟨hx', hnot⟩ := mem_hidden.1 hhidden
  obtain ⟨v, hv, hvname⟩ := Reflection.resourceNamed?_of_mem hx'
  refine hnot (List.mem_map.2 ⟨v, ?_, hvname⟩)
  unfold Reflection.functionResources Reflection.function?
  rw [hinfo, Option.elim_some, hresources]
  exact List.mem_filterMap.2 ⟨x, hx, hv⟩

/-- The calls that a function can lead to: of functions that it gets to, and of what is no
function. -/
def CanCall (s : Shader) (entry name : String) : Prop :=
  name ∈ (CallGraph.ofProgram s.program).transitive entry ∨ s.function? name = none

/-- A body that can be got to may run where the resources are hidden that are not mentioned. -/
theorem body_admitted {C : Correspondence} (ha : C.address) (hl : ¬C.lax)
    (h : ofProgram p = .ok (s, l)) (hu : ∀ f ∈ p.functions, Stmt.allPlainUpdates f.body = true)
    {entry : String} (hentry : (s.function? entry).isSome)
    (hcalls : ∀ name, s.CanCall entry name → C.calls name)
    (hreach : name ∈ (CallGraph.ofProgram p).transitive entry) (hf : s.function? name = some f) :
    Stmt.AllAdmitted C (fun n => n ∉ s.hidden entry ∨ n ∈ f.args.map Field.name) f.body := by
  obtain ⟨g, hg⟩ := Option.isSome_iff_exists.1 hentry
  obtain ⟨watched, hwatched, hnot⟩ := not_mem_hidden h hg
  obtain ⟨hprogram, hfunctions, -⟩ := ofProgram_ok h
  obtain ⟨hmem, hname⟩ := mem_of_function? h hf
  unfold function? at hf
  rw [hfunctions] at hf
  -- the scan and the callees of the function are entered under its name
  have hscan : (scans watched p).find? name = some (BodyScan.ofFunction watched f) := by
    have found := Table.find?_foldl_insert (t := []) (u := []) (fun f : Function => f)
      (BodyScan.ofFunction watched) name p.functions rfl
    rw [hf] at found
    exact found
  have hdirect : (CallGraph.ofProgram p).direct name =
      CallGraph.callees (p.functions.map Function.name) f := by
    have found := Table.find?_foldl_insert (t := []) (u := []) (fun f : Function => f)
      (CallGraph.callees (p.functions.map Function.name)) name p.functions rfl
    rw [hf] at found
    exact congrArg (fun o => o.getD []) found
  have hallowed : Mention.Allowed (s.hidden entry) C.calls [f.args.map Field.name] f.mentions := by
    refine BodyScan.allowed (w := watched) (s := { locals := [f.args.map Field.name] })
      (fun x hx => ?_) f.mentions (fun x hx => ?_) fun callee hcallee => ?_
    · rw [hwatched]
      exact (mem_hidden.1 hx).1
    · exact hnot x (Reflection.mem_mentioned hreach hscan hx)
    · refine hcalls callee ?_
      by_cases hknown : s.function? callee = none
      · exact Or.inr hknown
      · refine Or.inl ?_
        obtain ⟨k, hk⟩ := Option.ne_none_iff_exists'.1 hknown
        obtain ⟨hkmem, hkname⟩ := mem_of_function? h hk
        rw [hprogram]
        refine CallGraph.direct_mem_transitive _ hreach ?_
        rw [hdirect]
        exact CallGraph.mem_callees (List.mem_map.2 ⟨k, hkmem, hkname⟩) hcallee
  have htypes : ∀ (ts : List TypeExpr) (locals : List (List String)),
      (ts.map Mention.type).foldl Mention.locals locals = locals := by
    intro ts
    induction ts with
    | nil => exact fun _ => rfl
    | cons t ts ih => exact fun locals => ih locals
  have hargs : (f.args.map fun a => Mention.type a.type) =
      (f.args.map Field.type).map Mention.type := (List.map_map).symm
  have hresult : (f.returnType.elim [] fun t => [Mention.type t]).foldl Mention.locals
      [f.args.map Field.name] = [f.args.map Field.name] := by
    cases f.returnType <;> rfl
  unfold Function.mentions at hallowed
  rw [List.append_assoc, Mention.allowed_append, hargs, htypes, Mention.allowed_append,
    hresult] at hallowed
  have body := (Stmt.admitted_of_block (Stmt.admitted_of_list (H := s.hidden entry) ha hl f.body
    ([] :: [f.args.map Field.name]) (hu f hmem) (List.cons_ne_nil _ _))).2 hallowed.2.2
  have hknown : Locals.Known (s.hidden entry) [f.args.map Field.name] =
      fun n => n ∉ s.hidden entry ∨ n ∈ f.args.map Field.name := by
    funext n
    simp [Locals.Known]
  rwa [hknown] at body

end Shader

end Wgsl
