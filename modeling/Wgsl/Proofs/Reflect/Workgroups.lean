import Wgsl.Proofs.Layout.Settled
import Wgsl.Proofs.Reflect.Resources

/-! # Reflected sizes of workgroups

The size of a workgroup that reflection gives is what the arguments of the attribute fold to over the
constants of the program.

* `LayoutM.Tells`: what a computation gives while the constants stay the same.
* `Reflection.SizedBy`: the size of a workgroup and the arguments it is written with.
* `Reflection.sized_ofProgram`: the sizes of all functions.
-/

namespace Wgsl
set_option autoImplicit false

namespace LayoutM

variable {α β : Type} {constants : Table Expr}

/-- From layouts with these constants, the computation gives something with the property and leaves
the constants. -/
def Tells (constants : Table Expr) (x : LayoutM α) (P : α → Prop) : Prop :=
  ∀ l a l', l.constants = constants → x.run l = .ok (a, l') → P a ∧ l'.constants = constants

theorem tells_pure {P : α → Prop} {a : α} (h : P a) : Tells constants (pure a) P := by
  intro l b l' hl hrun
  cases hrun
  exact ⟨h, hl⟩

theorem Tells.bind {x : LayoutM α} {f : α → LayoutM β} {P : α → Prop} {Q : β → Prop}
    (hx : Tells constants x P) (hf : ∀ a, P a → Tells constants (f a) Q) :
    Tells constants (x >>= f) Q := by
  intro l b l₂ hl hrun
  obtain ⟨a, l₁, ha, hrun⟩ := bind_ok hrun
  obtain ⟨hp, hl₁⟩ := hx l a l₁ hl ha
  exact hf a hp l₁ b l₂ hl₁ hrun

theorem tells_of_extending {x : LayoutM α} (h : Reflection.extending.obeys x) :
    Tells constants x fun _ => True := fun l a l' hl hrun =>
  ⟨trivial, (h l a l' hrun).constants.trans hl⟩

theorem tells_mapM {f : α → LayoutM β} {P : α → β → Prop} (hf : ∀ a, Tells constants (f a) (P a))
    (items : List α) : Tells constants (items.mapM f) (List.Forall₂ P items) := by
  induction items with
  | nil => exact tells_pure .nil
  | cons a items ih =>
    rw [List.mapM_cons]
    exact (hf a).bind fun b hb => ih.bind fun bs hbs => tells_pure (.cons hb hbs)

end LayoutM

namespace Reflection

open LayoutM

variable {p : Program} {constants : Table Expr}

/-- The size of a workgroup is what up to three arguments fold to; missing ones count as one. -/
def SizedBy (constants : Table Expr) (args : List Expr) (size : Nat × Nat × Nat) : Prop :=
  ∃ ns, List.Forall₂ (fun e n => Expr.foldUInt32 constants e = .ok (some n)) (args.take 3) ns ∧
    size = ((ns.map UInt32.toNat).getD 0 1, (ns.map UInt32.toNat).getD 1 1,
      (ns.map UInt32.toNat).getD 2 1)

theorem dims_eq : ∀ {args : List Expr} {found : List Nat},
    workgroupSize?.dims constants args = .ok (some found) → ∃ ns,
      List.Forall₂ (fun e n => Expr.foldUInt32 constants e = .ok (some n)) args ns ∧
        found = ns.map UInt32.toNat
  | [], found, h => by
    cases h
    exact ⟨[], .nil, rfl⟩
  | e :: rest, found, h => by
    rw [workgroupSize?.dims] at h
    obtain ⟨n?, hn, h⟩ := Fault.bind_ok h
    cases n? with
    | none => cases h
    | some n =>
      obtain ⟨rest?, hrest, h⟩ := Fault.bind_ok h
      cases rest? with
      | none => cases h
      | some more =>
        cases h
        obtain ⟨ns, hns, rfl⟩ := dims_eq hrest
        exact ⟨n :: ns, .cons hn hns, rfl⟩

/-- The size that a function is reflected with. -/
def Sized (constants : Table Expr) (f : Function) (info : FunctionInfo) : Prop :=
  ∀ size, info.workgroupSize = some size →
    ∃ a, f.attribute? "workgroup_size" = some a ∧ SizedBy constants a.args size

theorem tells_workgroupSize? (a : Attribute) : Tells constants (workgroupSize? a) fun found =>
    ∀ size, found = some size → SizedBy constants a.args size := by
  intro l found l' hl hrun
  obtain ⟨_, _, hget, hrun⟩ := bind_ok hrun
  cases hget
  rw [hl] at hrun
  obtain ⟨dims?, l₁, hdims, hrun⟩ := bind_ok hrun
  cases hrun
  cases hfound : workgroupSize?.dims constants (a.args.take 3) with
  | error e =>
    rw [hfound] at hdims
    cases hdims
  | ok found =>
    rw [hfound] at hdims
    cases hdims
    refine ⟨fun size hsize => ?_, hl⟩
    obtain ⟨dims, rfl, rfl⟩ := Option.map_eq_some_iff.1 hsize
    obtain ⟨ns, hns, rfl⟩ := dims_eq hfound
    exact ⟨ns, hns, rfl⟩

theorem tells_functionOf {resources : List Resource} {graph : CallGraph} {scans : Table BodyScan}
    {running : List String} (f : Function) :
    Tells constants (functionOf p resources graph scans running f) (Sized constants f) := by
  have all : ∀ t : TypeExpr, (fun _ => True) t := fun _ => trivial
  have quiet {α : Type} {x : LayoutM α} : extending.obeys x → Tells constants x fun _ => True :=
    tells_of_extending
  rw [functionOf_eq]
  refine (quiet (Questioning.obeys_argsOf fun a _ => all a.type)).bind fun args _ => ?_
  refine (quiet (Questioning.obeys_option fun t _ => all t)).bind fun returnType _ => ?_
  refine (quiet (Questioning.obeys_inputsOf (fun _ _ m _ => all m.type) fun a _ => all a.type)).bind
    fun inputs _ => ?_
  refine (quiet (Questioning.obeys_outputsOf (fun _ _ m _ => all m.type) fun t _ => all t)).bind
    fun outputs _ => ?_
  have size : Tells constants (workgroupOf f) fun size => ∀ found, size = some found →
      ∃ a, f.attribute? "workgroup_size" = some a ∧ SizedBy constants a.args found := by
    unfold workgroupOf
    split
    · rename_i a ha
      intro l size l' hl hrun
      obtain ⟨sized, same⟩ := tells_workgroupSize? a l size l' hl hrun
      exact ⟨fun found hfound => ⟨a, ha, sized found hfound⟩, same⟩
    · exact tells_pure nofun
  refine size.bind fun size hsize => ?_
  split
  · exact (quiet (Asking.obeys_useAll _ _ _ _ _)).bind fun _ _ => tells_pure hsize
  · exact tells_pure hsize

/-- Every function is reflected with its size over the constants of the program. -/
theorem sized_ofProgram {r : Reflection} {l : Layouts}
    (h : (ofProgram p).run (Layouts.ofProgram p) = .ok (r, l)) :
    List.Forall₂ (Sized (Layouts.ofProgram p).constants) p.functions r.functions := by
  unfold Reflection.ofProgram at h
  rw [filterMapM_eq, map_eq_pure_bind, bind_assoc] at h
  obtain ⟨structs, l₁, h₁, h⟩ := bind_ok h
  rw [pure_bind] at h
  obtain ⟨aliases, l₂, h₂, h⟩ := bind_ok h
  obtain ⟨found, l₃, h₃, h⟩ := bind_ok h
  obtain ⟨_, _, hget, h⟩ := bind_ok h
  cases hget
  obtain ⟨functions, l₄, h₄, h⟩ := bind_ok h
  obtain ⟨_, _, hget, h⟩ := bind_ok h
  cases hget
  cases h
  have first := Passing.obeys_mapM (C := extending.toPassing) (fun s _ => extending_reset s) _ _ _ h₁
  have second := Passing.obeys_mapM (C := extending.toPassing) (fun a _ => Questioning.obeys_aliasOf trivial)
    _ _ _ h₂
  have third := Passing.obeys_mapM (C := extending.toPassing) (fun d _ =>
    Questioning.obeys_found fun _ _ => trivial) _ _ _ h₃
  have same := ((first.trans second).trans third).constants
  exact (tells_mapM tells_functionOf p.functions l₃ functions _ same h₄).1

end Reflection

end Wgsl
