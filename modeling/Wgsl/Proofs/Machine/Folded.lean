import Wgsl.Proofs.Const.Folding
import Wgsl.Proofs.Layout.Coherent
import Wgsl.Proofs.Machine.Holdings

/-! # What is folded is what is evaluated

An expression that folds to a constant evaluates to the same at module scope, provided that the
constants it names are bound to what their initializers fold to. Such an expression leaves the machine
as it is.

* `Eval.Gives`, `Eval.Still`: computations that leave the machine as it is.
* `Machine.Unclaimed`: the functions of constant expressions are the built-in ones.
* `Eval.still_expr`, `Eval.expr_becomes`: by induction over the expression.
-/

namespace Wgsl
set_option autoImplicit false

open Constant Library

/-! ## Computations that leave the machine alone -/

namespace Eval

variable {α β : Type} {m : Machine} {x : Eval α} {f : α → Eval β} {a : α} {r : Run α}

/-- The computation has the outcome and leaves the machine as it is. -/
def Gives (x : Eval α) (m : Machine) (r : Run α) : Prop := x.run m = .ok (r, m)

/-- The computation has an outcome and leaves the machine as it is. -/
def Still (m : Machine) (x : Eval α) : Prop := ∃ r, x.Gives m r

theorem gives_pure (a : α) : (pure a : Eval α).Gives m (.ok a) := rfl

theorem gives_get (m : Machine) : (get : Eval Machine).Gives m (.ok m) := rfl

theorem gives_lift (r : Run α) : (liftM r : Eval α).Gives m r := by
  cases r <;> rfl

theorem Gives.bind {r : Run β} (hx : x.Gives m (.ok a)) (hf : (f a).Gives m r) :
    (x >>= f).Gives m r := by
  unfold Gives at hx
  change (x.run m >>= _) = _
  rw [hx]
  exact hf

theorem Gives.located (line : Nat) (hx : x.Gives m r) :
    (Eval.located line x).Gives m (r.mapError fun e => e.at_ line) := by
  unfold Gives at hx
  change (_ <$> x.run m) = _
  rw [hx]
  rfl

theorem Gives.located_ok (line : Nat) (hx : x.Gives m (.ok a)) : (Eval.located line x).Gives m (.ok a) :=
  hx.located line

theorem still_pure (a : α) : Still m (pure a : Eval α) := ⟨_, gives_pure a⟩

theorem still_lift (r : Run α) : Still m (liftM r : Eval α) := ⟨_, gives_lift r⟩

theorem Still.bind (hx : Still m x) (hf : ∀ a, Still m (f a)) : Still m (x >>= f) := by
  obtain ⟨r, hx⟩ := hx
  cases r with
  | ok a =>
    obtain ⟨r, hf⟩ := hf a
    exact ⟨r, hx.bind hf⟩
  | error e =>
    refine ⟨.error e, ?_⟩
    unfold Gives at hx
    change (x.run m >>= _) = _
    rw [hx]
    rfl

theorem Still.located (line : Nat) (hx : Still m x) : Still m (Eval.located line x) := by
  obtain ⟨r, hx⟩ := hx
  exact ⟨_, hx.located line⟩

end Eval

/-! ## Calls -/

/-- No function of constant expressions is declared by the module, and calls are made. -/
structure Machine.Unclaimed (s : Shader) (m : Machine) : Prop where
  functions : ∀ name ∈ folded, s.function? name = none
  structs : ∀ name ∈ folded, m.layouts.structs.find? name = none
  byStruct : ∀ name ∈ folded, m.layouts.byStruct.find? name = none
  callResults : m.callResults = []

variable {s : Shader} {m m₁ : Machine} {call : Caller} {name : String}

theorem Machine.Unclaimed.carried (h : m.Unclaimed s) (hm : m.Carries m₁) : m₁.Unclaimed s where
  functions := h.functions
  structs name hname := by
    rw [hm.layouts.structs]
    exact h.structs name hname
  byStruct name hname := by
    rw [hm.layouts.undeclared name (h.structs name hname)]
    exact h.byStruct name hname
  callResults := hm.callResults h.callResults

/-- What is not declared is no structure. -/
theorem LayoutM.structInfo_undeclared {l : Layouts} (hb : l.byStruct.find? name = none)
    (hs : l.structs.find? name = none) : (LayoutM.structInfo name).run l = .ok (none, l) := by
  have counted : LayoutM.nesting.run l = .ok (depthOf l + 1, l) := rfl
  refine (run_bind_ok counted).trans ?_
  unfold structInfoWith
  rw [run_get, hb, hs]
  rfl

namespace Eval

theorem gives_structInfo (h : m.Unclaimed s) (hname : name ∈ folded) :
    (structInfo? name).Gives m (.ok none) := by
  have unknown := LayoutM.structInfo_undeclared (h.byStruct name hname) (h.structs name hname)
  change Except.map _ (Except.map _ ((LayoutM.structInfo name).run m.layouts)) = _
  rw [unknown]
  rfl

/-- A function of constant expressions is the built-in one. -/
theorem gives_callNamed (h : m.Unclaimed s) (hname : name ∈ folded) {args : List Value}
    {r : Run Value} (hr : (callBuiltin name args).Gives m r) :
    (callNamed s call name args).Gives m r := by
  unfold Eval.callNamed
  rw [h.functions name hname]
  exact (gives_structInfo h hname).bind hr

theorem still_callBuiltin (hname : name ∈ folded) (args : List Value) :
    Still m (callBuiltin name args) := by
  unfold callBuiltin
  cases harity : Builtin.checkArity name args.length with
  | error e => exact ⟨.error e, rfl⟩
  | ok u =>
    obtain ⟨outcome, hcall⟩ := call?_of_arity hname harity
    refine ⟨outcome, (gives_lift (.ok u)).bind ?_⟩
    rw [hcall]
    exact gives_lift outcome

theorem gives_callBuiltin {args : List Value} {v : Value}
    (harity : Builtin.checkArity name args.length = .ok ())
    (hcall : Library.call? name args = some (.ok v)) : (callBuiltin name args).Gives m (.ok v) := by
  unfold callBuiltin
  rw [harity]
  refine (gives_lift (.ok ())).bind ?_
  rw [hcall]
  rfl

/-- A call is made, since no outcome has been put in its place. -/
theorem gives_call (h : m.Unclaimed s) {k : Mark} {args : List Expr} {scope : ScopeId} {r : Run Value}
    (hr : (do callNamed s call name (← exprs s call scope args)).Gives m r) :
    (expr s call scope (.call k name args)).Gives m (r.mapError fun e => e.at_ k.line) := by
  rw [expr]
  refine Gives.located k.line (Gives.bind (gives_get m) ?_)
  rw [h.callResults]
  exact hr

/-! ## Expressions -/

variable {names : String → Prop} {scope : ScopeId}

mutual

/-- An expression that could be constant leaves the machine as it is. By induction on the
expression. -/
theorem still_expr (h : m.Unclaimed s) : ∀ e : Expr, e.Elementary names →
    Still m (expr s call scope e)
  | .literal _ _, _ => by
    rw [expr]
    exact still_pure _
  | .var k name, _ => by
    rw [expr]
    exact Still.located k.line ⟨_, readName_run scope name m⟩
  | .group k inner, he => by
    rw [expr]
    exact (still_expr h inner he).located k.line
  | .unary k op operand, ⟨hop, he⟩ => by
    cases op with
    | addressOf | deref => simp at hop
    | _ =>
      rw [expr]
      · exact ((still_expr h operand he).bind fun v => still_lift _).located k.line
      all_goals nofun
  | .binary k op lhs rhs, ⟨hl, hr⟩ => by
    rw [expr]
    refine ((still_expr h lhs hl).bind fun v => ?_).located k.line
    split
    · exact still_pure _
    · exact still_pure _
    · exact (still_expr h rhs hr).bind fun w => still_lift _
  | .call k name args, ⟨hname, he⟩ => by
    obtain ⟨r, hr⟩ : Still m (do callNamed s call name (← exprs s call scope args)) := by
      refine (still_exprs h args he).bind fun values => ?_
      obtain ⟨r, hr⟩ := still_callBuiltin hname values
      exact ⟨r, gives_callNamed h hname hr⟩
    exact ⟨_, gives_call h hr⟩

theorem still_exprs (h : m.Unclaimed s) : ∀ es : List Expr, Expr.AllElementary names es →
    Still m (exprs s call scope es)
  | [], _ => by
    rw [exprs]
    exact still_pure _
  | e :: rest, ⟨he, hrest⟩ => by
    rw [exprs]
    exact (still_expr h e he).bind fun v => (still_exprs h rest hrest).bind fun vs => still_pure _

end

end Eval

/-! ## Folded values -/

/-- Each name of the set is bound at module scope to what its initializer folds to, as far as that
stays inside thirty-two bits. -/
def Machine.Shows (constants : Table Expr) (names : String → Prop) (m : Machine) : Prop :=
  ∀ name init c, names name → constants.find? name = some init → init.Exact constants →
    Expr.fold constants init = .ok (some c) →
    ∃ v, m.scopes.findIn? ScopeArena.root name = some (.value v) ∧ c.Becomes v

namespace Eval

open Wgsl.Expr (Folds)

variable {names : String → Prop} {constants : Table Expr}

theorem literal_becomes {k : Mark} {value : Literal}
    (he : (Expr.literal k value).Elementary names) : (Constant.ofLiteral value).Becomes (.ofLiteral value) := by
  cases value with
  | bool b => exact .bool b
  | float x suffix => exact he.elim
  | int n suffix =>
    obtain ⟨hfits, rfl | rfl⟩ := he
    · have small : ¬ (0x7fffffff : Int64) < n := by
        rw [Int64.lt_iff_toInt_lt]
        have := hfits.2
        change ¬ (2147483647 : Int) < n.toInt
        omega
      have signed : Value.ofLiteral (.int n none) = .i32 n.toInt32 := if_neg small
      rw [signed]
      exact .of_fits hfits rfl
    · exact .of_fits hfits rfl

mutual

/-- What an expression folds to is what it evaluates to at module scope. By induction on the
expression; the constants it names have been evaluated before. -/
theorem expr_becomes (h : m.Unclaimed s) (hm : m.Shows constants names) : ∀ (e : Expr) {depth : Nat}
    {c : Constant}, depth ≤ Expr.maxFoldDepth → e.Elementary names → e.Exact constants →
    Folds constants depth e c → ∃ v, (expr s call ScopeArena.root e).Gives m (.ok v) ∧ c.Becomes v
  | .literal k value, depth, c, hdepth, he, _, hf => by
    obtain ⟨below, rfl⟩ := hf.levels
    cases hf
    refine ⟨_, ?_, literal_becomes he⟩
    rw [expr]
    exact gives_pure _
  | .var k name, depth, c, hdepth, he, hx, hf => by
    obtain ⟨below, rfl⟩ := hf.levels
    obtain ⟨init, hinit, hf⟩ := Expr.folds_var.1 hf
    obtain ⟨v, hslot, hc⟩ := hm name init c he hinit (hx.part (.var hinit (.here _)))
      (hf.fold (Nat.le_of_succ_le hdepth))
    refine ⟨v, ?_, hc⟩
    rw [expr]
    have read : m.nameValue ScopeArena.root name = .ok v := by
      unfold Machine.nameValue
      rw [ScopeArena.lookup_of_findIn? hslot]
      rfl
    exact Gives.located_ok k.line ((readName_run _ name m).trans (by rw [read]))
  | .group k inner, depth, c, hdepth, he, hx, hf => by
    obtain ⟨below, rfl⟩ := hf.levels
    obtain ⟨v, hv, hc⟩ := expr_becomes h hm inner (Nat.le_of_succ_le hdepth) he
      (hx.part (.group (.here _))) (Expr.folds_group.1 hf)
    refine ⟨v, ?_, hc⟩
    rw [expr]
    exact hv.located_ok k.line
  | .unary k op operand, depth, c, hdepth, ⟨hop, he⟩, hx, hf => by
    have hfits := hx.fits _ c (.here _) (hf.fold hdepth)
    obtain ⟨below, rfl⟩ := hf.levels
    obtain ⟨a, ha, hc⟩ := Expr.folds_unary.1 hf
    obtain ⟨v, hv, hav⟩ := expr_becomes h hm operand (Nat.le_of_succ_le hdepth) he
      (hx.part (.operand (.here _))) ha
    obtain ⟨w, hw, hcw⟩ := Value.unary_becomes hc hav hfits
    refine ⟨w, ?_, hcw⟩
    have applied : (do liftM (Value.unary op (← expr s call ScopeArena.root operand)) : Eval Value).Gives m
        (.ok w) := hv.bind (hw ▸ gives_lift _)
    cases op with
    | addressOf | deref => simp at hop
    | _ =>
      rw [expr]
      · exact applied.located_ok k.line
      all_goals nofun
  | .binary k op lhs rhs, depth, c, hdepth, ⟨hl, hr⟩, hx, hf => by
    have hfits := hx.fits _ c (.here _) (hf.fold hdepth)
    obtain ⟨below, rfl⟩ := hf.levels
    have hbelow := Nat.le_of_succ_le hdepth
    obtain ⟨a, ha, rest⟩ := Expr.folds_binary.1 hf
    obtain ⟨v, hv, hav⟩ := expr_becomes h hm lhs hbelow hl (hx.part (.lhs (.here _))) ha
    rcases rest with decided | ⟨hopen, b, hb, hop⟩
    · unfold Constant.decided? at decided
      split at decided <;> cases decided <;> cases hav
      all_goals
        refine ⟨_, ?_, .bool _⟩
        rw [expr]
        exact Gives.located_ok k.line (hv.bind rfl)
    · obtain ⟨w, hw, hbw⟩ := expr_becomes h hm rhs hbelow hr
        (hx.part (.rhs (ha.fold hbelow) hopen (.here _))) hb
      obtain ⟨u, hu, hcu⟩ := Value.binary_becomes hop hav hbw hfits fun hshift n hn =>
        hx.shifts k op lhs rhs n (.here _) hshift (hn ▸ hb.fold hbelow)
      refine ⟨u, ?_, hcu⟩
      rw [expr]
      refine Gives.located_ok k.line (hv.bind ?_)
      split
      · cases hav
        cases hopen
      · cases hav
        cases hopen
      · exact hw.bind (hu ▸ gives_lift _)
  | .call k name args, depth, c, hdepth, ⟨hname, he⟩, hx, hf => by
    have hfits := hx.fits _ c (.here _) (hf.fold hdepth)
    obtain ⟨below, rfl⟩ := hf.levels
    have hbelow := Nat.le_of_succ_le hdepth
    obtain ⟨found, hargs, hcall⟩ := Expr.folds_call.1 hf
    obtain ⟨values, hvalues, hbecome⟩ := exprs_becomes h hm args hbelow he
      (fun a ha => hx.part (.arg ha (.here _))) hargs
    have hints : name ≠ "select" → ∀ a ∈ found, ∃ n, a = .int n := by
      intro hne a ha
      obtain ⟨i, hi, rfl⟩ := List.mem_iff_getElem.1 ha
      have arg := hargs.get (by rw [hargs.length_eq]; exact hi) hi
      exact hx.integers k name args _ _ (.here _) hne (List.get_mem _ _) (arg.fold hbelow)
    obtain ⟨harity, w, hw, hcw⟩ := call_becomes hcall hbecome hints hfits
    refine ⟨w, ?_, hcw⟩
    exact gives_call h (hvalues.bind (gives_callNamed h hname (gives_callBuiltin harity hw)))

theorem exprs_becomes (h : m.Unclaimed s) (hm : m.Shows constants names) : ∀ (es : List Expr)
    {depth : Nat} {cs : List Constant}, depth ≤ Expr.maxFoldDepth → Expr.AllElementary names es →
    (∀ e ∈ es, e.Exact constants) → List.Forall₂ (Folds constants depth) es cs →
    ∃ vs, (exprs s call ScopeArena.root es).Gives m (.ok vs) ∧ List.Forall₂ Becomes cs vs
  | [], _, _, _, _, _, .nil => ⟨[], by rw [exprs]; exact gives_pure _, .nil⟩
  | e :: rest, _, _, hdepth, ⟨he, hrest⟩, hx, .cons hf hfs => by
    obtain ⟨v, hv, hc⟩ := expr_becomes h hm e hdepth he (hx e List.mem_cons_self) hf
    obtain ⟨vs, hvs, hcs⟩ := exprs_becomes h hm rest hdepth hrest
      (fun a ha => hx a (List.mem_cons_of_mem _ ha)) hfs
    refine ⟨v :: vs, ?_, .cons hc hcs⟩
    rw [exprs]
    exact hv.bind (hvs.bind (gives_pure _))

end

end Eval

end Wgsl
