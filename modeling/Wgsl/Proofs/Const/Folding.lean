import Mathlib.Data.List.Forall2
import Wgsl.Proofs.Const.Becoming
import Wgsl.Tree.Mention

/-! # What folding comes to

The expressions whose values folding asks for, and what is asked of them so that a folded value is
also the value at run time.

* `Expr.Folds`: an expression has a value within some levels; more levels change nothing.
* `Expr.Visits`: folding one expression comes to another.
* `Expr.Elementary`: literals, names, operators and functions that shaders compute with as well.
* `Expr.Exact`: nothing on the way exceeds thirty-two bits.
-/

namespace Wgsl
set_option autoImplicit false

namespace Expr

variable {constants : Table Expr} {depth deeper : Nat} {c : Constant} {k : Mark}

/-- The expression has the value when folding may go that deep. -/
def Folds (constants : Table Expr) (depth : Nat) (e : Expr) (c : Constant) : Prop :=
  (foldWithin constants depth e).run = .ok (some c)

/-! ## Parts -/

theorem folding_bind {α β : Type} {x : Folding α} {f : α → Folding β} {b : β} :
    (x >>= f).run = .ok (some b) ↔ ∃ a, x.run = .ok (some a) ∧ (f a).run = .ok (some b) := by
  constructor
  · intro h
    rw [OptionT.run_bind] at h
    cases hx : x.run with
    | error e =>
      rw [hx] at h
      cases h
    | ok a? =>
      rw [hx] at h
      cases a? with
      | none => cases h
      | some a => exact ⟨a, rfl, h⟩
  · rintro ⟨a, hx, hf⟩
    rw [OptionT.run_bind, hx]
    exact hf

theorem folding_elim {α : Type} {o : Option α} {a : α} :
    (o.elim failure pure : Folding α).run = .ok (some a) ↔ o = some a := by
  cases o with
  | none => exact ⟨nofun, nofun⟩
  | some b => exact ⟨fun h => Except.ok.inj h, fun h => congrArg Except.ok h⟩

theorem folding_mapM {α β : Type} {f : α → Folding β} : ∀ {items : List α} {found : List β},
    (items.mapM f).run = .ok (some found) ↔
      List.Forall₂ (fun a b => (f a).run = .ok (some b)) items found
  | [], found => by
    rw [List.mapM_nil, List.forall₂_nil_left_iff]
    exact ⟨fun h => (Option.some.inj (Except.ok.inj h)).symm, fun h => h ▸ rfl⟩
  | a :: items, found => by
    rw [List.mapM_cons, folding_bind]
    simp only [folding_bind, folding_mapM, List.forall₂_cons_left_iff]
    constructor
    · rintro ⟨b, hb, rest, hrest, h⟩
      exact ⟨b, rest, hb, hrest, (Option.some.inj (Except.ok.inj h)).symm⟩
    · rintro ⟨b, rest, hb, hrest, rfl⟩
      exact ⟨b, hb, rest, hrest, rfl⟩

section

variable {fold : Expr → Folding Constant}

theorem steps_var {name : String} : (foldStep constants fold (.var k name)).run = .ok (some c) ↔
    ∃ e, constants.find? name = some e ∧ (fold e).run = .ok (some c) := by
  refine folding_bind.trans ?_
  simp only [folding_elim]

theorem steps_unary {op : UnaryOp} {operand : Expr} :
    (foldStep constants fold (.unary k op operand)).run = .ok (some c) ↔
      ∃ a, (fold operand).run = .ok (some a) ∧ Constant.unary? op a = some c := by
  refine folding_bind.trans ?_
  simp only [folding_elim]

theorem steps_binary {op : BinaryOp} {lhs rhs : Expr} :
    (foldStep constants fold (.binary k op lhs rhs)).run = .ok (some c) ↔
      ∃ a, (fold lhs).run = .ok (some a) ∧ (Constant.decided? op a = some c ∨
        Constant.decided? op a = none ∧
          ∃ b, (fold rhs).run = .ok (some b) ∧ Constant.binary? op a b = some c) := by
  refine folding_bind.trans ?_
  refine exists_congr fun a => and_congr_right fun _ => ?_
  cases Constant.decided? op a with
  | some d =>
    simp only [reduceCtorEq, false_and, or_false]
    exact ⟨fun h => Except.ok.inj h, fun h => congrArg Except.ok h⟩
  | none => simp only [folding_bind, folding_elim, reduceCtorEq, true_and, false_or]

theorem steps_call {name : String} {args : List Expr} :
    (foldStep constants fold (.call k name args)).run = .ok (some c) ↔
      ∃ found, List.Forall₂ (fun a c => (fold a).run = .ok (some c)) args found ∧
        (Constant.call name found).run = .ok (some c) := by
  refine folding_bind.trans ?_
  simp only [folding_mapM]

theorem steps_construct {id : NodeId} {attributes : List Attribute} {name : String} {arg : Expr} :
    (foldStep constants fold (.construct k (.named id attributes name) [arg])).run = .ok (some c) ↔
      ∃ a, (fold arg).run = .ok (some a) ∧ Constant.convert? name a = some c := by
  refine folding_bind.trans ?_
  simp only [folding_elim]

end

theorem folds_var {name : String} : Folds constants (depth + 1) (.var k name) c ↔
    ∃ e, constants.find? name = some e ∧ Folds constants depth e c := steps_var

theorem folds_group {inner : Expr} :
    Folds constants (depth + 1) (.group k inner) c ↔ Folds constants depth inner c := .rfl

theorem folds_unary {op : UnaryOp} {operand : Expr} :
    Folds constants (depth + 1) (.unary k op operand) c ↔
      ∃ a, Folds constants depth operand a ∧ Constant.unary? op a = some c := steps_unary

theorem folds_binary {op : BinaryOp} {lhs rhs : Expr} :
    Folds constants (depth + 1) (.binary k op lhs rhs) c ↔
      ∃ a, Folds constants depth lhs a ∧ (Constant.decided? op a = some c ∨
        Constant.decided? op a = none ∧
          ∃ b, Folds constants depth rhs b ∧ Constant.binary? op a b = some c) := steps_binary

theorem folds_call {name : String} {args : List Expr} :
    Folds constants (depth + 1) (.call k name args) c ↔
      ∃ found, List.Forall₂ (Folds constants depth) args found ∧
        (Constant.call name found).run = .ok (some c) := steps_call

/-! ## More is known -/

/-- Whether a name is read somewhere in the expression. -/
def Reads (e : Expr) (name : String) : Prop := Mention.variable_ name ∈ e.mentions

theorem mem_listMentions {m : Mention} : ∀ {args : List Expr} {a : Expr}, a ∈ args →
    m ∈ a.mentions → m ∈ listMentions args
  | first :: rest, a, ha, hm => by
    rw [listMentions, List.mem_append]
    obtain rfl | ha := List.mem_cons.1 ha
    · exact .inl hm
    · exact .inr (mem_listMentions ha hm)

/-- A value found for an expression that is no name is found wherever its operands have the values that
they had. -/
theorem foldStep_imp {constants' : Table Expr} {fold fold' : Expr → Folding Constant} {e : Expr}
    (hvar : ∀ k name, e ≠ .var k name) (h : ∀ a c, (∀ x, a.Reads x → e.Reads x) →
      (fold a).run = .ok (some c) → (fold' a).run = .ok (some c))
    (he : (foldStep constants fold e).run = .ok (some c)) :
    (foldStep constants' fold' e).run = .ok (some c) := by
  cases e with
  | literal k value => exact he
  | var k name => exact absurd rfl (hvar k name)
  | group k inner => exact h inner c (fun _ hx => hx) he
  | unary k op operand =>
    obtain ⟨a, ha, hop⟩ := steps_unary.1 he
    exact steps_unary.2 ⟨a, h operand a (fun _ hx => hx) ha, hop⟩
  | binary k op lhs rhs =>
    obtain ⟨a, ha, rest⟩ := steps_binary.1 he
    refine steps_binary.2 ⟨a, h lhs a (fun _ => List.mem_append_left _) ha, ?_⟩
    refine rest.imp_right fun ⟨hopen, b, hb, hop⟩ => ?_
    exact ⟨hopen, b, h rhs b (fun _ => List.mem_append_right _) hb, hop⟩
  | call k name args =>
    obtain ⟨found, hargs, hcall⟩ := steps_call.1 he
    refine steps_call.2 ⟨found, ?_, hcall⟩
    refine List.forall₂_iff_zip.2 ⟨hargs.length_eq, fun {a c} hac => ?_⟩
    refine h a c (fun x hx => List.mem_cons_of_mem _ ?_) ((List.forall₂_iff_zip.1 hargs).2 hac)
    exact mem_listMentions (List.of_mem_zip hac).1 hx
  | construct k type args =>
    cases type with
    | named id attributes name =>
      match args with
      | [arg] =>
        obtain ⟨a, ha, hconvert⟩ := steps_construct.1 he
        refine steps_construct.2 ⟨a, h arg a (fun x hx => List.mem_cons_of_mem _ ?_) ha, hconvert⟩
        exact List.mem_append_left _ hx
      | [] | _ :: _ :: _ => cases he
    | _ => cases he
  | _ => cases he

/-- A value that is found within some levels is found within more. By induction on the levels. -/
theorem Folds.mono {e : Expr} (h : Folds constants depth e c) (hd : depth ≤ deeper) :
    Folds constants deeper e c := by
  induction depth generalizing e c deeper with
  | zero => cases h
  | succ depth ih =>
    obtain ⟨deeper, rfl⟩ : ∃ d, deeper = d + 1 := ⟨deeper - 1, by omega⟩
    have step : ∀ {e c}, Folds constants depth e c → Folds constants deeper e c :=
      fun h => ih h (by omega)
    by_cases hvar : ∃ k name, e = .var k name
    · obtain ⟨k, name, rfl⟩ := hvar
      obtain ⟨e, he, h⟩ := folds_var.1 h
      exact folds_var.2 ⟨e, he, step h⟩
    · exact foldStep_imp (fun k name he => hvar ⟨k, name, he⟩) (fun a c _ => step) h

theorem Folds.levels {e : Expr} (h : Folds constants depth e c) : ∃ below, depth = below + 1 := by
  cases depth with
  | zero => cases h
  | succ below => exact ⟨below, rfl⟩

/-- What has a value within the levels that are allowed folds to it. -/
theorem Folds.fold {e : Expr} (h : Folds constants depth e c) (hd : depth ≤ maxFoldDepth) :
    fold constants e = .ok (some c) := h.mono hd

/-! ## What is visited -/

/-- Folding the first expression asks for the value of the second. Behind an operand that decides,
nothing is asked for. -/
inductive Visits (constants : Table Expr) : Expr → Expr → Prop where
  | here (e : Expr) : Visits constants e e
  | var {k : Mark} {name : String} {init e : Expr} (h : constants.find? name = some init)
      (rest : Visits constants init e) : Visits constants (.var k name) e
  | group {k : Mark} {inner e : Expr} (rest : Visits constants inner e) :
      Visits constants (.group k inner) e
  | operand {k : Mark} {op : UnaryOp} {operand e : Expr} (rest : Visits constants operand e) :
      Visits constants (.unary k op operand) e
  | lhs {k : Mark} {op : BinaryOp} {lhs rhs e : Expr} (rest : Visits constants lhs e) :
      Visits constants (.binary k op lhs rhs) e
  | rhs {k : Mark} {op : BinaryOp} {lhs rhs e : Expr} {a : Constant}
      (h : fold constants lhs = .ok (some a)) (hopen : Constant.decided? op a = none)
      (rest : Visits constants rhs e) : Visits constants (.binary k op lhs rhs) e
  | arg {k : Mark} {name : String} {args : List Expr} {a e : Expr} (h : a ∈ args)
      (rest : Visits constants a e) : Visits constants (.call k name args) e

theorem Visits.trans {e e' e'' : Expr} (h : Visits constants e e') (h' : Visits constants e' e'') :
    Visits constants e e'' := by
  induction h with
  | here e => exact h'
  | var hname _ ih => exact .var hname (ih h')
  | group _ ih => exact .group (ih h')
  | operand _ ih => exact .operand (ih h')
  | lhs _ ih => exact .lhs (ih h')
  | rhs hlhs hopen _ ih => exact .rhs hlhs hopen (ih h')
  | arg ha _ ih => exact .arg ha (ih h')

/-! ## What is asked of expressions -/

/-- Folding stays inside thirty-two bits: integers fit, amounts of shifts are less than the width, and
functions on numbers are given integers. -/
structure Exact (constants : Table Expr) (e : Expr) : Prop where
  fits : ∀ part c, Visits constants e part → fold constants part = .ok (some c) → c.Fits
  shifts : ∀ k op lhs rhs n, Visits constants e (.binary k op lhs rhs) →
    op = .shiftLeft ∨ op = .shiftRight → fold constants rhs = .ok (some (.int n)) →
    0 ≤ n.toInt ∧ n.toInt < 32
  integers : ∀ k name args a c, Visits constants e (.call k name args) → name ≠ "select" → a ∈ args →
    fold constants a = .ok (some c) → ∃ n, c = .int n

theorem Exact.part {e e' : Expr} (h : e.Exact constants) (hv : Visits constants e e') :
    e'.Exact constants where
  fits part c hpart := h.fits part c (hv.trans hpart)
  shifts k op lhs rhs n hpart := h.shifts k op lhs rhs n (hv.trans hpart)
  integers k name args a c hpart := h.integers k name args a c (hv.trans hpart)

/-- A literal folds to itself. -/
theorem exact_literal {value : Literal} (hfits : (Constant.ofLiteral value).Fits) :
    (literal k value).Exact constants where
  fits _ _ hpart hf := by
    cases hpart
    cases hf
    exact hfits
  shifts _ _ _ _ _ hpart := nomatch hpart
  integers _ _ _ _ _ hpart := nomatch hpart

/-- A name folds to what its initializer folds to. -/
theorem exact_var {name : String} {init : Expr} (hinit : constants.find? name = some init)
    (h : init.Exact constants) : (var k name).Exact constants where
  fits part c hpart hf := by
    cases hpart with
    | here =>
      obtain ⟨_, hfound, hf⟩ := folds_var.1 hf
      cases hinit.symm.trans hfound
      exact h.fits init c (.here _) (hf.fold (Nat.le_succ _))
    | var hfound rest =>
      cases hinit.symm.trans hfound
      exact h.fits part c rest hf
  shifts k op lhs rhs n hpart := by
    cases hpart with
    | var hfound rest =>
      cases hinit.symm.trans hfound
      exact h.shifts k op lhs rhs n rest
  integers k name args a c hpart := by
    cases hpart with
    | var hfound rest =>
      cases hinit.symm.trans hfound
      exact h.integers k name args a c rest

/-- An operator on operands that are folded. -/
theorem exact_binary {op : BinaryOp} {lhs rhs : Expr} (hl : lhs.Exact constants)
    (hr : rhs.Exact constants)
    (hfits : ∀ c, fold constants (binary k op lhs rhs) = .ok (some c) → c.Fits)
    (hshift : ∀ n, op = .shiftLeft ∨ op = .shiftRight → fold constants rhs = .ok (some (.int n)) →
      0 ≤ n.toInt ∧ n.toInt < 32) : (binary k op lhs rhs).Exact constants where
  fits part c hpart hf := by
    cases hpart with
    | here => exact hfits c hf
    | lhs rest => exact hl.fits part c rest hf
    | rhs _ _ rest => exact hr.fits part c rest hf
  shifts k op' lhs' rhs' n hpart hop hf := by
    cases hpart with
    | here => exact hshift n hop hf
    | lhs rest => exact hl.shifts k op' lhs' rhs' n rest hop hf
    | rhs _ _ rest => exact hr.shifts k op' lhs' rhs' n rest hop hf
  integers k name args a c hpart := by
    cases hpart with
    | lhs rest => exact hl.integers k name args a c rest
    | rhs _ _ rest => exact hr.integers k name args a c rest

mutual

/-- The expression is built from booleans, signed integers, names of the set, and the operators and
functions that constant expressions and shaders share. -/
def Elementary (names : String → Prop) : Expr → Prop
  | .literal _ (.bool _) => True
  | .literal _ (.int n suffix) => (Constant.int n).Fits ∧ (suffix = none ∨ suffix = some 'i')
  | .var _ name => names name
  | .group _ inner => inner.Elementary names
  | .unary _ op operand => op ∈ [UnaryOp.negate, .not, .complement] ∧ operand.Elementary names
  | .binary _ _ lhs rhs => lhs.Elementary names ∧ rhs.Elementary names
  | .call _ name args => name ∈ Library.folded ∧ AllElementary names args
  | _ => False

def AllElementary (names : String → Prop) : List Expr → Prop
  | [] => True
  | e :: rest => e.Elementary names ∧ AllElementary names rest

end

end Expr

end Wgsl
