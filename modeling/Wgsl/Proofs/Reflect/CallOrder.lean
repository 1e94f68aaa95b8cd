import Wgsl.Proofs.Reflect.Unbound

/-! # Callees come before their callers

A walk puts a function behind what its callees have added. A callee that is missing there is still
being walked further out, and then the function calls itself through it: on the way from such a callee
to the function each function calls the next.

* `walk_spares`: a walk adds nothing that is still being walked, so it adds nothing twice.
* `walk_calleesFirst`: a function behind which a callee is missing is on a cycle.
* `collects`: what the walks from the entry points and from one function come to.
-/

namespace Wgsl.CallGraph
set_option autoImplicit false

/-- One function calls another directly. -/
def Calls (g : CallGraph) (caller callee : String) : Prop := callee ∈ g.direct caller

/-- The calls among the listed functions form no cycle. -/
def Acyclic (g : CallGraph) (names : List String) : Prop :=
  ∀ x, ¬Relation.TransGen (fun a b => a ∈ names ∧ b ∈ names ∧ g.Calls a b) x x

/-- Every listed function has all its callees in front of it. -/
def CalleesFirst (g : CallGraph) (names : List String) : Prop :=
  ∀ before x after, names = before ++ x :: after → ∀ y, g.Calls x y → y ∈ before

/-- The same for the functions that do not call themselves, not even through others. -/
def CalleesFirstOffCycles (g : CallGraph) (names : List String) : Prop :=
  ∀ before x after, names = before ++ x :: after → ¬Relation.TransGen g.Calls x x →
    ∀ y, g.Calls x y → y ∈ before

variable {g : CallGraph} {path order names : List String} {name : String} {budget : Nat}

/-! ## Nothing twice -/

/-- A walk adds no function that is being walked further out. -/
theorem walk_spares (budget : Nat) : ∀ (path order : List String) (name : String),
    ∀ x ∈ g.walk budget path order name, x ∈ path → x ∈ order := by
  induction budget with
  | zero => exact fun path order name x hx _ => hx
  | succ budget ih =>
    intro path order name x hx hpath
    rw [walk] at hx
    split at hx
    · exact hx
    · rename_i hnew
      rw [Bool.or_eq_true, List.contains_iff_mem, List.contains_iff_mem, not_or] at hnew
      obtain hx | hx := List.mem_append.1 hx
      · refine List.foldlRecOn (motive := fun o => x ∈ o → x ∈ order) _ _ id
          (fun o ho callee _ hmem => ho ?_) hx
        exact ih _ _ _ x hmem (List.mem_cons_of_mem _ hpath)
      · exact absurd (List.mem_singleton.1 hx ▸ hpath) hnew.2

/-- A walk adds each function once. -/
theorem nodup_walk (budget : Nat) : ∀ (path order : List String) (name : String), order.Nodup →
    (g.walk budget path order name).Nodup := by
  induction budget with
  | zero => exact fun path order name h => h
  | succ budget ih =>
    intro path order name h
    rw [walk]
    split
    · exact h
    · rename_i hnew
      rw [Bool.or_eq_true, List.contains_iff_mem, List.contains_iff_mem, not_or] at hnew
      obtain ⟨hn, hnot⟩ : ((g.direct name).foldl
          (fun o callee => g.walk budget (name :: path) o callee) order).Nodup ∧
          name ∉ (g.direct name).foldl (fun o callee => g.walk budget (name :: path) o callee) order := by
        refine List.foldlRecOn (motive := fun o => o.Nodup ∧ name ∉ o) _ _ ⟨h, hnew.1⟩
          fun o ho callee _ => ⟨ih _ _ _ ho.1, fun hmem => ho.2 ?_⟩
        exact walk_spares budget _ _ _ name hmem List.mem_cons_self
      refine List.nodup_append.2 ⟨hn, List.pairwise_singleton _ name, fun a ha b hb hab => hnot ?_⟩
      exact hab.trans (List.mem_singleton.1 hb) ▸ ha

/-! ## Callees first -/

/-- From each function on the path calls lead to the first one. -/
theorem reaches_head {y : String} (h : List.IsChain (fun a b => g.Calls b a) (name :: path))
    (hy : y ∈ name :: path) : Relation.ReflTransGen g.Calls y name := by
  induction path generalizing name with
  | nil =>
    obtain rfl := List.mem_singleton.1 hy
    exact .refl
  | cons next path ih =>
    obtain ⟨called, chain⟩ := List.isChain_cons_cons.1 h
    obtain rfl | hy := List.mem_cons.1 hy
    · exact .refl
    · exact (ih chain hy).tail called

/-- One more function at the end, all of whose callees have been added unless it is on a cycle. -/
theorem CalleesFirstOffCycles.concat (h : g.CalleesFirstOffCycles order)
    (hname : ¬Relation.TransGen g.Calls name name → ∀ y, g.Calls name y → y ∈ order) :
    g.CalleesFirstOffCycles (order ++ [name]) := by
  intro before x after he hx y hy
  obtain ⟨rest, hbefore, hrest⟩ | ⟨rest, horder, hrest⟩ := List.append_eq_append_iff.1 he
  · cases rest with
    | nil =>
      obtain ⟨rfl, -⟩ := List.cons.inj hrest
      rw [List.append_nil] at hbefore
      exact hbefore ▸ hname hx y hy
    | cons z rest => simp at hrest
  · cases rest with
    | nil =>
      obtain ⟨rfl, -⟩ := List.cons.inj hrest
      rw [List.append_nil] at horder
      exact horder ▸ hname hx y hy
    | cons z rest =>
      obtain ⟨rfl, -⟩ := List.cons.inj hrest
      exact h before x rest horder hx y hy

/-- The functions on the path call one another, and the budget outlasts them. -/
structure Walking (g : CallGraph) (budget : Nat) (path : List String) : Prop where
  nodup : path.Nodup
  known : ∀ x ∈ path, x ∈ g.map Prod.fst
  enough : g.length + 2 ≤ budget + path.length

theorem walking_nil : g.Walking g.walkBudget [] := ⟨List.nodup_nil, nofun, Nat.le_refl _⟩

/-- The path of a callee. -/
theorem Walking.enter {callee : String} (h : g.Walking (budget + 1) path) (hnew : name ∉ path)
    (hc : g.Calls name callee) : g.Walking budget (name :: path) where
  nodup := List.nodup_cons.2 ⟨hnew, h.nodup⟩
  known := List.forall_mem_cons.2 ⟨mem_keys_of_direct hc, h.known⟩
  enough := by
    have enough := h.enough
    rw [List.length_cons]
    omega

theorem Walking.adds (h : g.Walking budget path) (order : List String) (name : String) :
    Adds g path order (g.walk budget path order name) ∧
      (name ∈ g.walk budget path order name ∨ name ∈ path) :=
  walk_adds budget path order name h.nodup h.known h.enough

/-- After a walk every function has its callees in front of it, unless it is on a cycle. -/
theorem walk_calleesFirst (budget : Nat) : ∀ (path order : List String) (name : String),
    g.Walking budget path → List.IsChain (fun a b => g.Calls b a) (name :: path) →
    g.CalleesFirstOffCycles order → g.CalleesFirstOffCycles (g.walk budget path order name) := by
  induction budget with
  | zero => exact fun path order name _ _ h => h
  | succ budget ih =>
    intro path order name hw chain h
    rw [walk]
    split
    · exact h
    · rename_i hnew
      rw [Bool.or_eq_true, List.contains_iff_mem, List.contains_iff_mem, not_or] at hnew
      have entered : ∀ callee, g.Calls name callee → g.Walking budget (name :: path) :=
        fun callee hc => hw.enter hnew.2 hc
      refine CalleesFirstOffCycles.concat ?_ fun acyclic y hy => ?_
      · refine List.foldlRecOn (motive := g.CalleesFirstOffCycles) _ _ h fun o ho callee hc => ?_
        exact ih _ _ _ (entered callee hc) (List.isChain_cons_cons.2 ⟨hc, chain⟩) ho
      · have walked := (adds_foldl
          (fun o callee => (entered y hy).adds o callee) (g.direct name) order).2 y hy
        refine walked.resolve_right fun hpath => acyclic ?_
        exact .head' hy (reaches_head chain hpath)

/-! ## What is collected -/

/-- What is listed is listed once, and callees first as long as there is no cycle. -/
structure Listing (g : CallGraph) (starts names : List String) : Prop where
  nodup : names.Nodup
  mem_iff : ∀ x, x ∈ names ↔ ∃ start ∈ starts, Relation.ReflTransGen g.Calls start x
  calleesFirst : g.Acyclic names → g.CalleesFirst names

/-- On a cycle through a listed function all functions are listed. -/
theorem Acyclic.of_closed {x : String} (h : g.Acyclic names)
    (closed : ∀ x ∈ names, ∀ y, g.Calls x y → y ∈ names) (hx : x ∈ names) :
    ¬Relation.TransGen g.Calls x x := by
  intro cycle
  refine h x ?_
  have listed : ∀ y, Relation.TransGen g.Calls x y →
      y ∈ names ∧ Relation.TransGen (fun a b => a ∈ names ∧ b ∈ names ∧ g.Calls a b) x y := by
    intro y hy
    induction hy with
    | single hc => exact ⟨closed _ hx _ hc, .single ⟨hx, closed _ hx _ hc, hc⟩⟩
    | tail _ hc ih => exact ⟨closed _ ih.1 _ hc, ih.2.tail ⟨ih.1, closed _ ih.1 _ hc, hc⟩⟩
  exact (listed x cycle).2

variable (g)

/-- The walks from some functions, one behind the other. -/
theorem listing_walks (starts : List String) :
    g.Listing starts (starts.foldl (fun order start => g.walk g.walkBudget [] order start) []) := by
  obtain ⟨adds, met⟩ := adds_foldl
    (fun order start => walking_nil.adds order start) starts []
  have nodup : (starts.foldl (fun order start => g.walk g.walkBudget [] order start) []).Nodup :=
    List.foldlRecOn (motive := List.Nodup) _ _ List.nodup_nil
      fun order h start _ => nodup_walk _ _ _ _ h
  have first : g.CalleesFirstOffCycles
      (starts.foldl (fun order start => g.walk g.walkBudget [] order start) []) :=
    List.foldlRecOn (motive := g.CalleesFirstOffCycles) _ _ (by intro before x after he; simp at he)
      fun order h start _ => walk_calleesFirst _ _ _ _ walking_nil (List.IsChain.singleton _) h
  have sound : ∀ x ∈ starts.foldl (fun order start => g.walk g.walkBudget [] order start) [],
      ∃ start ∈ starts, Relation.ReflTransGen g.Calls start x := by
    refine List.foldlRecOn (motive := fun names => ∀ x ∈ names, ∃ start ∈ starts,
      Relation.ReflTransGen g.Calls start x) _ _ nofun fun order h start hstart x hx => ?_
    exact (walk_reaches _ _ _ _ x hx).elim (h x) fun reaches => ⟨start, hstart, reaches⟩
  generalize starts.foldl (fun order start => g.walk g.walkBudget [] order start) [] = names
    at adds met nodup first sound
  have closed : ∀ x ∈ names, ∀ y, g.Calls x y → y ∈ names := fun x hx y hy =>
    (adds.closed x hx List.not_mem_nil y hy).resolve_right List.not_mem_nil
  refine ⟨nodup, fun x => ⟨sound x, ?_⟩, fun acyclic before x after he => ?_⟩
  · rintro ⟨start, hstart, reaches⟩
    induction reaches with
    | refl => exact (met start hstart).resolve_right List.not_mem_nil
    | tail _ hc ih => exact closed _ ih _ hc
  · have hx : x ∈ names := he ▸ List.mem_append_right _ List.mem_cons_self
    exact first before x after he (acyclic.of_closed closed hx)

variable {g}

/-- The last function of the name counts. -/
theorem find?_ofProgram (p : Program) (name : String) : (ofProgram p).find? name =
    (p.functions.reverse.find? fun f => f.name = name).map
      (callees (p.functions.map Function.name)) := by
  unfold ofProgram
  suffices general : ∀ (functions : List Function) (t : CallGraph),
      (functions.foldl (fun (g : CallGraph) f =>
        g.insert f.name (callees (p.functions.map Function.name) f)) t).find? name =
      ((functions.reverse.find? fun f => f.name = name).map
        (callees (p.functions.map Function.name))).or (t.find? name) by
    rw [general, Table.find?_nil, Option.or_none]
  intro functions
  induction functions with
  | nil => exact fun t => rfl
  | cons f functions ih =>
    intro t
    rw [List.foldl_cons, ih, List.reverse_cons, List.find?_append]
    by_cases hn : f.name = name
    · subst hn
      cases functions.reverse.find? fun f' => f'.name = f.name <;> simp
    · rw [Table.find?_insert_of_ne _ _ (Ne.symm hn)]
      simp [hn]

/-- The calls are those in the bodies. Of several functions of one name the last one is called. -/
theorem calls_ofProgram {p : Program} {caller callee : String} : (ofProgram p).Calls caller callee ↔
    ∃ f, p.functions.reverse.find? (fun f => f.name = caller) = some f ∧ .call callee ∈ f.mentions ∧
      callee ∈ p.functions.map Function.name := by
  rw [Calls, direct, find?_ofProgram]
  cases p.functions.reverse.find? fun f => f.name = caller with
  | none => simp
  | some f => simp [mem_callees_iff, and_comm]

/-- A function is listed with what it reaches, and so are the entry points, each function once and
callees first unless there is a cycle among them. -/
theorem reachable_listed (p : Program) :
    (∀ caller callee, (ofProgram p).Calls caller callee ↔
      ∃ f, p.functions.reverse.find? (fun f => f.name = caller) = some f ∧
        .call callee ∈ f.mentions ∧ callee ∈ p.functions.map Function.name) ∧
    (∀ start, (ofProgram p).Listing [start] ((ofProgram p).transitive start)) ∧
    (ofProgram p).Listing ((p.functions.filter Function.isEntryPoint).map Function.name)
      ((ofProgram p).reachable p) := by
  refine ⟨fun _ _ => calls_ofProgram, fun start => (ofProgram p).listing_walks [start], ?_⟩
  have walks := (ofProgram p).listing_walks
    ((p.functions.filter Function.isEntryPoint).map Function.name)
  rwa [List.foldl_map] at walks

end Wgsl.CallGraph
