import Wgsl.Parse.Program
import Wgsl.Proofs.Parse.Numbering
import Wgsl.Proofs.Tree.Sites

/-! # The counts of parsed array types

A count is folded where its type stands, over the constants that the parser knows there. What does not
fold is noted with the number of the type and folded again at the end.

* `Expr.foldWithin_withCounts`: entering counts changes no value.
* `Late`: what is noted up to the end, and the counts that come of it.
* `Late.Settles`: the count of an array type is of one kind or the other.
* `Parser.Counted`: a parser settles all types that it makes; one lemma for each production.
-/

namespace Wgsl
set_option autoImplicit false

/-! ## Values with counts entered -/

namespace Expr

variable {constants constants' : Table Expr} {counts : Counts}

theorem listWithCounts_eq (es : List Expr) :
    listWithCounts counts es = es.map (Expr.withCounts counts) := by
  induction es with
  | nil => rfl
  | cons e es ih => rw [listWithCounts, ih, List.map_cons]

/-- A name has the initializer that it has in the other table, with counts entered. -/
def Recounted (counts : Counts) (constants constants' : Table Expr) : Prop :=
  ∀ name, constants'.find? name = (constants.find? name).map (Expr.withCounts counts)

/-- Entering counts changes no value: folding does not look at the counts of types. -/
theorem foldWithin_withCounts (h : Recounted counts constants constants') (depth : Nat) (e : Expr) :
    foldWithin constants' depth e = foldWithin constants depth e ∧
      foldWithin constants' depth (e.withCounts counts) = foldWithin constants depth e := by
  induction depth generalizing e with
  | zero => exact ⟨rfl, rfl⟩
  | succ depth ih =>
    have same : foldWithin constants' depth = foldWithin constants depth := funext fun e => (ih e).1
    have entered : foldWithin constants' depth ∘ Expr.withCounts counts =
        foldWithin constants depth := funext fun e => (ih e).2
    simp only [foldWithin]
    cases e with
    | var k name =>
      have read : foldStep constants' (foldWithin constants' depth) (.var k name) =
          foldStep constants (foldWithin constants depth) (.var k name) := by
        rw [foldStep, foldStep, h name]
        cases constants.find? name with
        | none => rfl
        | some init => exact (ih init).2
      exact ⟨read, read⟩
    | literal k value => exact ⟨rfl, rfl⟩
    | group k inner => exact ih inner
    | unary k op operand =>
      simp only [withCounts, foldStep, (ih operand).1, (ih operand).2, and_self]
    | binary k op lhs rhs =>
      simp only [withCounts, foldStep, (ih lhs).1, (ih lhs).2, (ih rhs).1, (ih rhs).2, and_self]
    | call k name args =>
      have mapped : (args.map (Expr.withCounts counts)).mapM (foldWithin constants' depth) =
          args.mapM (foldWithin constants depth) := by
        rw [List.mapM_map, entered]
      rw [withCounts, listWithCounts_eq, foldStep, foldStep, foldStep, mapped, same]
      exact ⟨rfl, rfl⟩
    | construct k type args =>
      cases type with
      | named id attributes name =>
        cases args with
        | nil => exact ⟨rfl, rfl⟩
        | cons arg more =>
          cases more with
          | nil =>
            simp only [withCounts, TypeExpr.withCounts, listWithCounts, foldStep, (ih arg).1,
              (ih arg).2, and_self]
          | cons _ _ => exact ⟨rfl, rfl⟩
      | _ => exact ⟨rfl, rfl⟩
    | _ => exact ⟨rfl, rfl⟩

theorem foldUInt32_recounted (h : Recounted counts constants constants') (e : Expr) :
    foldUInt32 constants' e = foldUInt32 constants e := by
  unfold foldUInt32 fold
  rw [(foldWithin_withCounts h maxFoldDepth e).1]

end Expr

/-! ## Counts noted for the end -/

/-- What a parse knows at its end: the counts noted on the way, the constants of the module, and the
counts that are entered. -/
structure Late where
  deferred : List (NodeId × Expr)
  constants : Table Expr
  counts : Counts
  found : ∀ id n, counts id = some n →
    ∃ e, (id, e) ∈ deferred ∧ Expr.foldUInt32 constants e = .ok (some n)

namespace Late

variable {L : Late} {known : Table Expr} {ns ms : List Node}

/-- A count is what its expression folds to over the constants that are known, or else over those of
the module. -/
def Folds (L : Late) (known : Table Expr) (e : Expr) (n : UInt32) : Prop :=
  Expr.foldUInt32 known e = .ok (some n) ∨
    (∀ m, Expr.foldUInt32 known e ≠ .ok (some m)) ∧ Expr.foldUInt32 L.constants e = .ok (some n)

/-- If the node is an array type with a count, its expression folds to the count. -/
def Settles (L : Late) (known : Table Expr) : Node → Prop
  | .type (.array _ _ _ (some n) countExpr) => ∃ e, countExpr = some e ∧ L.Folds known e n
  | _ => True

/-- All nodes in a list are settled. -/
def SettlesAll (L : Late) (known : Table Expr) (ns : List Node) : Prop := ∀ n ∈ ns, L.Settles known n

@[simp] theorem settlesAll_nil : L.SettlesAll known [] := nofun

@[simp] theorem settlesAll_append :
    L.SettlesAll known (ns ++ ms) ↔ L.SettlesAll known ns ∧ L.SettlesAll known ms :=
  List.forall_mem_append

@[simp] theorem settlesAll_cons {n : Node} :
    L.SettlesAll known (n :: ns) ↔ L.Settles known n ∧ L.SettlesAll known ns :=
  List.forall_mem_cons

@[simp] theorem settles_expr (e : Expr) : L.Settles known (.expr e) := trivial

@[simp] theorem settles_named (id : NodeId) (attributes : List Attribute) (name : String) :
    L.Settles known (.type (.named id attributes name)) := trivial

@[simp] theorem settles_template (id : NodeId) (attributes : List Attribute) (name : String)
    (param : Option TypeExpr) (access space : Option String) :
    L.Settles known (.type (.template id attributes name param access space)) := trivial

/-- An expression is settled as it is written and with counts entered. -/
def SettlesExpr (L : Late) (known : Table Expr) (e : Expr) : Prop :=
  L.SettlesAll known e.nodes ∧ L.SettlesAll known (e.withCounts L.counts).nodes

def SettlesExprs (L : Late) (known : Table Expr) (es : List Expr) : Prop :=
  ∀ e ∈ es, L.SettlesExpr known e

def SettlesType (L : Late) (known : Table Expr) (t : TypeExpr) : Prop :=
  L.SettlesAll known t.nodes ∧ L.SettlesAll known (t.withCounts L.counts).nodes

/-- Counts are not entered into the arguments of attributes. -/
def SettlesAttributes (L : Late) (known : Table Expr) (attributes : List Attribute) : Prop :=
  L.SettlesAll known (Attribute.listNodes attributes)

/-- The parameters of an array are settled, and the count is what folds where it stands. -/
structure SettlesParams (L : Late) (known : Table Expr)
    (params : Option TypeExpr × Option UInt32 × Option Expr) : Prop where
  element : ∀ t, params.1 = some t → L.SettlesType known t
  count : ∀ e, params.2.2 = some e →
    L.SettlesExpr known e ∧ Expr.foldUInt32 known e = .ok params.2.1
  uncounted : params.2.2 = none → params.2.1 = none

/-- The counts that are noted behind a state have later numbers. -/
def Follows (L : Late) (s : ParseState) : Prop :=
  ∃ later, L.deferred = s.context.deferred ++ later ∧ ∀ entry ∈ later, s.nextId ≤ entry.1

theorem settlesParam_nodes {param : Option TypeExpr} (h : ∀ t, param = some t → L.SettlesType known t) :
    L.SettlesAll known (TypeExpr.paramNodes param) ∧
      L.SettlesAll known (TypeExpr.paramNodes (TypeExpr.paramWithCounts L.counts param)) := by
  cases param with
  | none => exact ⟨settlesAll_nil, settlesAll_nil⟩
  | some t => exact h t rfl

theorem settlesExprs_nodes {es : List Expr} (h : L.SettlesExprs known es) :
    L.SettlesAll known (Expr.listNodes es) ∧
      L.SettlesAll known (Expr.listNodes (Expr.listWithCounts L.counts es)) := by
  induction es with
  | nil => exact ⟨settlesAll_nil, settlesAll_nil⟩
  | cons e es ih =>
    obtain ⟨raw, entered⟩ := h e List.mem_cons_self
    obtain ⟨raws, entereds⟩ := ih fun e he => h e (List.mem_cons_of_mem _ he)
    exact ⟨settlesAll_append.2 ⟨raw, raws⟩, settlesAll_append.2 ⟨entered, entereds⟩⟩

end Late

/-- The constants that a parse knows are those of the table, and what has been noted has been given a
number. -/
structure ParseState.Knows (L : Late) (known : Table Expr) (s : ParseState) : Prop where
  constants : Expr.Recounted L.counts s.context.constants known
  numbered : ∀ entry ∈ s.context.deferred, entry.1 < s.nextId

namespace Parser

variable {α β : Type} {L : Late} {known : Table Expr}

/-- One property for the value that a repetition goes on from, and one for the value that it ends
with. -/
def Step.Meets (P Q : α → Prop) : Step α → Prop
  | .done a => Q a
  | .next a => P a

theorem Step.meets_self {P : α → Prop} (r : Step α) : r.Meets P P ↔ P r.value := by
  cases r <;> rfl

/-! ## Parsers -/

/-- From a state that knows these constants, the parser leads to one that knows those behind the
result, and the result has the property once all counts have been noted. -/
def Counted (L : Late) (x : Parser α) (known : Table Expr) (after : α → Table Expr) (Q : α → Prop) :
    Prop :=
  ∀ s a s', s.Knows L known → x.run s = .ok (a, s') →
    s'.Knows L (after a) ∧ (L.Follows s' → L.Follows s ∧ Q a)

section

variable {x : Parser α} {f : α → Parser β} {middle : α → Table Expr} {after : β → Table Expr}
  {P : α → Prop} {Q : β → Prop}

theorem counted_pure {after : α → Table Expr} {Q : α → Prop} {a : α} (hafter : known = after a)
    (h : Q a) : Counted L (pure a) known after Q := by
  intro s b s' hs hrun
  cases hrun
  exact ⟨hafter ▸ hs, fun hl => ⟨hl, h⟩⟩

/-- A parser that declares no constant. -/
abbrev Leaves (L : Late) (x : Parser α) (known : Table Expr) (Q : α → Prop) : Prop :=
  Counted L x known (fun _ => known) Q

theorem leaves_pure {Q : α → Prop} {a : α} (h : Q a) : Leaves L (pure a) known Q :=
  counted_pure rfl h

/-- What is known of the first result may be used for the second. -/
theorem Counted.bind (hx : Counted L x known middle P)
    (hf : ∀ a, Counted L (f a) (middle a) after fun b => P a → Q b) :
    Counted L (x >>= f) known after Q := by
  intro s b s' hs hrun
  obtain ⟨a, s₁, h₁, h₂⟩ := bind_ok hrun
  obtain ⟨hs₁, hback⟩ := hx s a s₁ hs h₁
  obtain ⟨hs', hback'⟩ := hf a s₁ b s' hs₁ h₂
  refine ⟨hs', fun hl => ?_⟩
  obtain ⟨hl₁, hb⟩ := hback' hl
  obtain ⟨hl₀, ha⟩ := hback hl₁
  exact ⟨hl₀, hb ha⟩

theorem Quiet.counted (hx : Quiet x) (hf : ∀ a, Counted L (f a) known after Q) :
    Counted L (x >>= f) known after Q := by
  intro s b s' hs hrun
  obtain ⟨a, s₁, h₁, h₂⟩ := bind_ok hrun
  obtain ⟨⟨hid, hcontext⟩, -⟩ := hx s a s₁ h₁
  have same : s₁.Knows L known := by
    refine ⟨?_, ?_⟩
    · rw [hcontext]
      exact hs.constants
    · rw [hcontext, hid]
      exact hs.numbered
  obtain ⟨hs', hback⟩ := hf a s₁ b s' same h₂
  refine ⟨hs', fun hl => ?_⟩
  obtain ⟨hl₁, hb⟩ := hback hl
  unfold Late.Follows at hl₁ ⊢
  rw [hcontext, hid] at hl₁
  exact ⟨hl₁, hb⟩

theorem counted_failAt {after : α → Table Expr} {Q : α → Prop} (token : Token) (cause : ParseCause) :
    Counted L (failAt token cause) known after Q := fun _ _ _ _ h => nomatch h

theorem counted_failAt_bind (token : Token) (cause : ParseCause) :
    Counted L (failAt token cause >>= f) known after Q := fun _ _ _ _ h => nomatch h

theorem counted_failHere {after : α → Table Expr} {Q : α → Prop} (cause : ParseCause) :
    Counted L (failHere cause) known after Q := quiet_peek.counted fun _ => counted_failAt _ _

theorem counted_fresh {f : NodeId → Parser β} (hf : ∀ id, Counted L (f id) known after Q) :
    Counted L (fresh >>= f) known after Q := by
  intro s b s' hs hrun
  rw [run_fresh] at hrun
  have next : ParseState.Knows L known { s with nextId := s.nextId + 1 } :=
    ⟨hs.constants, fun entry he => Nat.lt_succ_of_lt (hs.numbered entry he)⟩
  obtain ⟨hs', hback⟩ := hf s.nextId _ b s' next hrun
  refine ⟨hs', fun hl => ?_⟩
  obtain ⟨⟨later, hlater, hids⟩, hb⟩ := hback hl
  exact ⟨⟨later, hlater, fun entry he => Nat.le_of_succ_le (hids entry he)⟩, hb⟩

theorem counted_freshMark {line : Nat} {f : Mark → Parser β}
    (hf : ∀ k : Mark, Counted L (f k) known after Q) :
    Counted L (freshMark line >>= f) known after Q := by
  unfold freshMark
  rw [bind_assoc]
  refine counted_fresh fun id => ?_
  rw [pure_bind]
  exact hf _

theorem Counted.imp {after : α → Table Expr} {Q : α → Prop} (hx : Counted L x known after P)
    (h : ∀ a, P a → Q a) : Counted L x known after Q := by
  intro s a s' hs hrun
  obtain ⟨hs', hback⟩ := hx s a s' hs hrun
  exact ⟨hs', fun hl => ⟨(hback hl).1, h a (hback hl).2⟩⟩

theorem Counted.map {after : α → Table Expr} {after' : β → Table Expr} (hx : Counted L x known after P)
    {g : α → β} (hafter : ∀ a, after' (g a) = after a) (h : ∀ a, P a → Q (g a)) :
    Counted L (g <$> x) known after' Q := by
  rw [map_eq_pure_bind]
  exact hx.bind fun a => counted_pure (hafter a).symm (h a)

/-- What every round keeps, a repetition keeps; the last round may give something else. -/
theorem counted_loop {after : α → Table Expr} {init : α} {step : α → Parser (Step α)} {Q : α → Prop}
    (hstep : ∀ a, Counted L (step a) (after a) (fun r => after r.value) fun r => P a → r.Meets P Q) :
    Counted L (loop init step) (after init) after fun a => P init → Q a := by
  intro s a s' hs hrun
  rw [run_loop] at hrun
  let Kept (a : α) (t : ParseState) : Prop :=
    t.Knows L (after a) ∧ (L.Follows t → L.Follows s ∧ (P init → P a))
  let Ends (a : α) (t : ParseState) : Prop :=
    t.Knows L (after a) ∧ (L.Follows t → L.Follows s ∧ (P init → Q a))
  refine iterate_ok Kept Ends ?_ ?_ _ _ _ _ _ ⟨hs, fun hl => ⟨hl, id⟩⟩ hrun
  all_goals
    intro a t b t' ⟨ht, hback⟩ hb
    obtain ⟨ht', hback'⟩ := hstep a t _ t' ht hb
    refine ⟨ht', fun hl => ?_⟩
    obtain ⟨hl', hab⟩ := hback' hl
    exact ⟨(hback hl').1, fun hinit => hab ((hback hl').2 hinit)⟩

end

theorem leaves_loop {init : α} {step : α → Parser (Step α)} {P : α → Prop}
    (hstep : ∀ a, Leaves L (step a) known fun r => P a → P r.value) :
    Leaves L (loop init step) known fun a => P init → P a :=
  counted_loop fun a => (hstep a).imp fun r h ha => r.meets_self.2 (h ha)

theorem leaves_loop_of {init : α} {step : α → Parser (Step α)} {P : α → Prop} (hinit : P init)
    (hstep : ∀ a, Leaves L (step a) known fun r => P a → P r.value) :
    Leaves L (loop init step) known P := (leaves_loop hstep).imp fun _ h => h hinit

theorem leaves_commaList {item : Parser α} {Q : α → Prop} (h : Leaves L item known Q)
    (close : TokenKind) : Leaves L (commaList close item) known fun items => ∀ a ∈ items, Q a := by
  have nothing : ∀ a ∈ ([] : List α), Q a := fun _ h => nomatch h
  refine Counted.map (leaves_loop_of nothing fun items => ?_) (fun _ => rfl) fun items hi => by
    simpa using hi
  refine (quiet_check close).counted fun b => ?_
  split
  · exact leaves_pure fun h => h
  · refine h.bind fun a => (quiet_accept .comma).counted fun b => ?_
    split <;> exact leaves_pure fun ha hi => by simpa using ⟨ha, hi⟩

/-! ## Expressions -/

abbrev LeavesExpr (L : Late) (x : Parser Expr) (known : Table Expr) : Prop :=
  Leaves L x known (L.SettlesExpr known)

abbrev LeavesType (L : Late) (x : Parser TypeExpr) (known : Table Expr) : Prop :=
  Leaves L x known (L.SettlesType known)

section

variable {operand expr shift : Parser Expr} {type : Parser TypeExpr}

theorem leaves_chain (ops : List (TokenKind × BinaryOp)) (h : LeavesExpr L operand known) :
    LeavesExpr L (chain ops operand) known := by
  refine h.bind fun first => leaves_loop fun left => ?_
  refine quiet_peekKind.counted fun kind => ?_
  split
  · exact leaves_pure fun hl => hl
  · refine quiet_advance.counted fun _ => h.bind fun right => counted_freshMark fun k => ?_
    refine leaves_pure fun hr hl => ?_
    simpa [Late.SettlesExpr, Expr.nodes, Expr.withCounts] using ⟨⟨hl.1, hr.1⟩, hl.2, hr.2⟩

theorem leaves_binaryLevels (ls : List (List (TokenKind × BinaryOp))) (h : LeavesExpr L operand known) :
    LeavesExpr L (binaryLevels ls operand) known := by
  unfold binaryLevels
  induction ls with
  | nil => exact h
  | cons ops ls ih => exact leaves_chain ops ih

theorem leaves_arguments (h : LeavesExpr L expr known) :
    Leaves L (arguments expr) known (L.SettlesExprs known) := by
  refine (quiet_expect _ _).counted fun _ => (leaves_commaList h _).bind fun args => ?_
  exact (quiet_expect _ _).counted fun _ => leaves_pure fun ha => ha

theorem leaves_attributesOf (h : LeavesExpr L expr known) :
    Leaves L (attributesOf expr) known (L.SettlesAttributes known) := by
  have nothing : L.SettlesAttributes known [] := Late.settlesAll_nil
  refine Counted.map (leaves_loop_of nothing fun found => ?_) (fun _ => rfl) fun found hf => ?_
  · refine (quiet_check _).counted fun b => ?_
    split
    · refine quiet_advance.counted fun _ => quiet_advance.counted fun name => ?_
      dsimp only
      split
      · refine (quiet_accept _).counted fun b => ?_
        split
        · refine (leaves_commaList h _).bind fun args => (quiet_expect _ _).counted fun _ => ?_
          refine leaves_pure fun ha hf => Late.settlesAll_append.2 ⟨?_, hf⟩
          exact (Late.settlesExprs_nodes ha).1
        · exact leaves_pure fun hf => hf
      · exact counted_failAt_bind _ _
    · exact leaves_pure fun hf => hf
  · simpa [Late.SettlesAttributes, Late.SettlesAll, Attribute.listNodes_eq] using hf

theorem leaves_trailing (h : LeavesExpr L expr known) (base : Expr) :
    Leaves L (trailing expr base) known fun e => L.SettlesExpr known base → L.SettlesExpr known e := by
  refine leaves_loop fun base => (quiet_accept _).counted fun b => ?_
  split
  · refine h.bind fun index => (quiet_expect _ _).counted fun _ => counted_freshMark fun k => ?_
    refine leaves_pure fun hi hb => ?_
    simpa [Late.SettlesExpr, Expr.nodes, Expr.withCounts] using ⟨⟨hb.1, hi.1⟩, hb.2, hi.2⟩
  · refine (quiet_accept _).counted fun b => ?_
    split
    · refine quiet_identifier.counted fun name => counted_freshMark fun k => leaves_pure fun hb => ?_
      simpa [Late.SettlesExpr, Expr.nodes, Expr.withCounts] using hb
    · exact leaves_pure fun hb => hb

theorem leaves_named (h : LeavesExpr L expr known) (ht : LeavesType L type known) :
    LeavesExpr L (named expr type) known := by
  refine quiet_peek.counted fun token => quiet_peekSecond.counted fun second => ?_
  split
  · refine quiet_advance.counted fun _ => (quiet_expect _ _).counted fun _ => ht.bind fun ty => ?_
    refine (quiet_expect _ _).counted fun _ => (quiet_expect _ _).counted fun _ => h.bind fun value => ?_
    refine (quiet_accept _).counted fun _ => (quiet_expect _ _).counted fun _ => ?_
    refine counted_freshMark fun k => leaves_pure fun hv ht => ?_
    simpa [Late.SettlesExpr, Expr.nodes, Expr.withCounts] using ⟨⟨ht.1, hv.1⟩, ht.2, hv.2⟩
  · refine quiet_get.counted fun s => ?_
    extract_lets isType opensTemplate
    split
    · refine ht.bind fun ty => (leaves_arguments h).bind fun args => ?_
      refine counted_freshMark fun k => leaves_pure fun ha ht => ?_
      obtain ⟨raw, entered⟩ := Late.settlesExprs_nodes ha
      simpa [Late.SettlesExpr, Expr.nodes, Expr.withCounts] using ⟨⟨ht.1, raw⟩, ht.2, entered⟩
    · refine quiet_advance.counted fun _ => ?_
      split
      · refine (leaves_arguments h).bind fun args => counted_freshMark fun k => leaves_pure fun ha => ?_
        obtain ⟨raw, entered⟩ := Late.settlesExprs_nodes ha
        simpa [Late.SettlesExpr, Expr.nodes, Expr.withCounts] using ⟨raw, entered⟩
      · refine counted_freshMark fun k => leaves_pure ?_
        simp [Late.SettlesExpr, Expr.nodes, Expr.withCounts]

theorem leaves_primary (h : LeavesExpr L expr known) (ht : LeavesType L type known) :
    LeavesExpr L (primary expr type) known := by
  refine quiet_peek.counted fun token => ?_
  extract_lets read
  have literal : ∀ value? cause, LeavesExpr L (read value? cause) known := by
    intro value? cause
    refine quiet_advance.counted fun _ => ?_
    cases value? with
    | some value =>
      refine counted_freshMark fun k => leaves_pure ?_
      simp [Late.SettlesExpr, Expr.nodes, Expr.withCounts]
    | none => exact counted_failAt _ _
  split
  · exact literal _ _
  · exact literal _ _
  · exact literal (some (.bool true)) .expectedExpression
  · exact literal (some (.bool false)) .expectedExpression
  · refine quiet_advance.counted fun _ => h.bind fun inner => (quiet_expect _ _).counted fun _ => ?_
    refine counted_freshMark fun k => leaves_pure fun hi => ?_
    simpa [Late.SettlesExpr, Expr.nodes, Expr.withCounts] using hi
  · exact leaves_named h ht
  · exact counted_failAt _ _

theorem leaves_unaryStep (ho : LeavesExpr L operand known) (h : LeavesExpr L expr known)
    (ht : LeavesType L type known) : LeavesExpr L (unaryStep operand expr type) known := by
  refine quiet_peekKind.counted fun kind => ?_
  split
  · refine quiet_advance.counted fun token => ho.bind fun inner => ?_
    refine counted_freshMark fun k => leaves_pure fun hi => ?_
    simpa [Late.SettlesExpr, Expr.nodes, Expr.withCounts] using hi
  · exact (leaves_primary h ht).bind fun base => leaves_trailing h base

/-! ## Types -/

theorem counted_fold {β : Type} {after : β → Table Expr} {Q : β → Prop} {e : Expr}
    {f : Option UInt32 → Parser β} (hf : ∀ count, Counted L (f count) known after fun b =>
      Expr.foldUInt32 known e = .ok count → Q b) :
    Counted L (do f (← Expr.foldUInt32 (← get).context.constants e)) known after Q := by
  intro s b s' hs hrun
  obtain ⟨_, _, hget, hrun⟩ := bind_ok hrun
  cases hget
  obtain ⟨count, s₁, hfold, hrun⟩ := bind_ok hrun
  have folded := Expr.foldUInt32_recounted hs.constants e
  cases hcount : Expr.foldUInt32 s.context.constants e with
  | error fault =>
    rw [hcount] at hfold
    cases hfold
  | ok found =>
    rw [hcount] at hfold
    cases hfold
    obtain ⟨hs', hback⟩ := hf count s b s' hs hrun
    exact ⟨hs', fun hl => ⟨(hback hl).1, (hback hl).2 (folded.trans hcount)⟩⟩

theorem leaves_arrayParams (h : LeavesExpr L shift known) (ht : LeavesType L type known) :
    Leaves L (arrayParams shift type) known (L.SettlesParams known) := by
  have closed : ∀ (element : TypeExpr) (counted : Option UInt32 × Option Expr), Leaves L (do
      let _ ← expect .greaterThan "to close array type"
      return (some element, counted.1, counted.2)) known fun params =>
        L.SettlesParams known (some element, counted) → L.SettlesParams known params :=
    fun element counted => (quiet_expect _ _).counted fun _ => leaves_pure fun h => h
  refine (quiet_accept _).counted fun b => ?_
  split
  · refine ht.bind fun element => (quiet_accept _).counted fun b => ?_
    have uncounted : Leaves L (do
        let _ ← expect .greaterThan "to close array type"
        return (some element, none, none)) known fun params =>
          L.SettlesType known element → L.SettlesParams known params :=
      (closed element (none, none)).imp fun params hp he =>
        hp ⟨fun t e => by cases e; exact he, nofun, fun _ => rfl⟩
    split
    · refine (quiet_check _).counted fun b => ?_
      split
      · exact uncounted
      · refine h.bind fun e => counted_fold fun count => ?_
        refine (closed element (count, some e)).imp fun params hp hcount he ht => ?_
        refine hp ⟨fun t e => by cases e; exact ht, fun e' e => ?_, nofun⟩
        cases e
        exact ⟨he, hcount⟩
    · exact uncounted
  · exact leaves_pure ⟨nofun, nofun, fun _ => rfl⟩

/-- A count that is entered for a new number has been noted with it. -/
theorem noted {s : ParseState} (hs : s.Knows L known) {own later : List (NodeId × Expr)}
    (hl : L.deferred = s.context.deferred ++ own ++ later)
    (hlater : ∀ entry ∈ later, s.nextId + 1 ≤ entry.1) {n : UInt32}
    (hn : L.counts s.nextId = some n) :
    ∃ e, (s.nextId, e) ∈ own ∧ Expr.foldUInt32 L.constants e = .ok (some n) := by
  obtain ⟨e, hmem, he⟩ := L.found _ _ hn
  rw [hl, List.mem_append, List.mem_append] at hmem
  obtain (hmem | hmem) | hmem := hmem
  · exact absurd (hs.numbered _ hmem) (Nat.lt_irrefl _)
  · exact ⟨e, hmem, he⟩
  · exact absurd (hlater _ hmem) (Nat.not_succ_le_self _)

theorem settlesType_array {id : NodeId} {attributes : List Attribute} {element : Option TypeExpr}
    {count : Option UInt32} {countExpr : Option Expr} (ha : L.SettlesAttributes known attributes)
    (hp : L.SettlesParams known (element, count, countExpr))
    (hlate : ∀ n, L.counts id = some n → count = none ∧
      ∃ e, countExpr = some e ∧ Expr.foldUInt32 L.constants e = .ok (some n)) :
    L.SettlesType known (.array id attributes element count countExpr) := by
  have folded : ∀ n, count = some n → ∃ e, countExpr = some e ∧ L.Folds known e n := by
    intro n hn
    cases countExpr with
    | none =>
      cases hn.symm.trans (hp.uncounted rfl)
    | some e => exact ⟨e, rfl, .inl (hn ▸ (hp.count e rfl).2)⟩
  have parts := Late.settlesParam_nodes hp.element
  have counted : L.SettlesAll known (Expr.countNodes countExpr) := by
    cases countExpr with
    | none => exact Late.settlesAll_nil
    | some e => exact (hp.count e rfl).1.1
  refine ⟨?_, ?_⟩
  · refine Late.settlesAll_cons.2 ⟨?_, by simpa using ⟨ha, parts.1, counted⟩⟩
    cases count with
    | none => trivial
    | some n => exact folded n rfl
  · refine Late.settlesAll_cons.2 ⟨?_, by simpa using ⟨ha, parts.2, counted⟩⟩
    cases hcounts : L.counts id with
    | none =>
      cases count with
      | none => trivial
      | some n => exact folded n rfl
    | some n =>
      obtain ⟨rfl, e, rfl, he⟩ := hlate n hcounts
      refine ⟨e, rfl, .inr ⟨fun m hm => ?_, he⟩⟩
      cases (hp.count e rfl).2.symm.trans hm

/-- A new array type. Its count is noted if it does not fold. -/
theorem leaves_array (attributes : List Attribute)
    (params : Option TypeExpr × Option UInt32 × Option Expr) : Leaves L (do
      let id ← fresh
      if let (none, some e) := params.2 then
        modifyContext fun c => { c with deferred := c.deferred ++ [(id, e)] }
      return .array id attributes params.1 params.2.1 params.2.2) known fun t =>
        L.SettlesParams known params → L.SettlesAttributes known attributes → L.SettlesType known t := by
  obtain ⟨element, count, countExpr⟩ := params
  intro s t s' hs hrun
  rw [run_fresh] at hrun
  -- what is noted here, if anything, is noted with the new number
  have made : ∀ own : List (NodeId × Expr), (∀ entry ∈ own, entry.1 = s.nextId) →
      (∀ e, (s.nextId, e) ∈ own → count = none ∧ countExpr = some e) →
      s'.context = { s.context with deferred := s.context.deferred ++ own } →
      s'.nextId = s.nextId + 1 → t = .array s.nextId attributes element count countExpr →
      s'.Knows L known ∧ (L.Follows s' → L.Follows s ∧ (L.SettlesParams known (element, count, countExpr) →
        L.SettlesAttributes known attributes → L.SettlesType known t)) := by
    rintro own hnew hown hcontext hid rfl
    refine ⟨⟨?_, fun entry he => ?_⟩, fun ⟨later, hl, hlater⟩ => ?_⟩
    · rw [hcontext]
      exact hs.constants
    · rw [hcontext] at he
      rw [hid]
      obtain he | he := List.mem_append.1 he
      · exact Nat.lt_succ_of_lt (hs.numbered entry he)
      · rw [hnew entry he]
        exact Nat.lt_succ_self _
    · rw [hcontext] at hl
      rw [hid] at hlater
      refine ⟨⟨own ++ later, hl.trans (List.append_assoc _ _ _), fun entry he => ?_⟩, fun hp ha => ?_⟩
      · obtain he | he := List.mem_append.1 he
        · exact Nat.le_of_eq (hnew entry he).symm
        · exact Nat.le_of_succ_le (hlater entry he)
      · refine settlesType_array ha hp fun n hn => ?_
        obtain ⟨e, hmem, he⟩ := noted hs hl hlater hn
        obtain ⟨hcount, hexpr⟩ := hown e hmem
        exact ⟨hcount, e, hexpr, he⟩
  cases count with
  | some n =>
    cases hrun
    exact made [] nofun nofun (by rw [List.append_nil]) rfl rfl
  | none =>
    cases countExpr with
    | none =>
      cases hrun
      exact made [] nofun nofun (by rw [List.append_nil]) rfl rfl
    | some e =>
      cases hrun
      refine made [(s.nextId, e)] (fun entry he => ?_) (fun e' he => ?_) rfl rfl rfl
      · rw [List.mem_singleton.1 he]
      · cases List.mem_singleton.1 he
        exact ⟨rfl, rfl⟩

theorem leaves_templateParams (name : String) (ht : LeavesType L type known) :
    Leaves L (templateParams name type) known fun params => ∀ t, params.1 = some t →
      L.SettlesType known t := by
  refine (quiet_accept _).counted fun b => ?_
  split
  · have rest : ∀ param : Option TypeExpr × Option String, Leaves L (do
          let access ← do
            if ← accept .comma then
              if ← check .greaterThan then pure none else pure (some (← identifier))
            else pure none
          let _ ← expect .greaterThan "to close template parameters"
          return (param.1, access, param.2)) known fun params => params.1 = param.1 := by
      intro param
      have closed : ∀ access : Option String, Leaves L (do
          let _ ← expect .greaterThan "to close template parameters"
          return (param.1, access, param.2)) known fun params => params.1 = param.1 := fun access =>
        (quiet_expect _ _).counted fun _ => leaves_pure rfl
      refine (quiet_accept _).counted fun b => ?_
      split
      · refine (quiet_check _).counted fun b => ?_
        split
        · exact closed none
        · exact quiet_identifier.counted fun access => closed (some access)
      · exact closed none
    have typed : ∀ (t : TypeExpr) (space : Option String), Leaves L (do
          let access ← do
            if ← accept .comma then
              if ← check .greaterThan then pure none else pure (some (← identifier))
            else pure none
          let _ ← expect .greaterThan "to close template parameters"
          return (some t, access, space)) known fun params => L.SettlesType known t →
            ∀ u, params.1 = some u → L.SettlesType known u := fun t space =>
      (rest (some t, space)).imp fun params hp ht u hu => by
        cases hp.symm.trans hu
        exact ht
    dsimp only
    split
    · refine quiet_identifier.counted fun space => (quiet_expect _ _).counted fun _ => ?_
      exact ht.bind fun t => typed t (some space)
    · split
      · refine quiet_identifier.counted fun space => ?_
        exact (rest (none, some space)).imp fun params hp t ht => nomatch hp.symm.trans ht
      · exact ht.bind fun t => typed t none
  · exact leaves_pure nofun

theorem leaves_typeStep (he : LeavesExpr L expr known) (h : LeavesExpr L shift known)
    (ht : LeavesType L type known) : LeavesType L (typeStep expr shift type) known := by
  refine (leaves_attributesOf he).bind fun attributes => quiet_advance.counted fun token => ?_
  dsimp only
  split
  · split
    · exact (leaves_arrayParams h ht).bind fun params => leaves_array attributes params
    · split
      · refine counted_fresh fun first => counted_fresh fun id => leaves_pure fun ha => ?_
        simpa [Late.SettlesType, Late.SettlesAttributes, TypeExpr.nodes, TypeExpr.withCounts,
          TypeExpr.paramWithCounts, TypeExpr.paramNodes, Attribute.listNodes] using ha
      · split
        · refine (leaves_templateParams _ ht).bind fun params => counted_fresh fun id => ?_
          refine leaves_pure fun hp ha => ?_
          obtain ⟨raw, entered⟩ := Late.settlesParam_nodes hp
          have attributed : L.SettlesAll known (Attribute.listNodes attributes) := ha
          simpa [Late.SettlesType, TypeExpr.nodes, TypeExpr.withCounts] using
            ⟨⟨attributed, raw⟩, attributed, entered⟩
        · refine counted_fresh fun id => leaves_pure fun ha => ?_
          simpa [Late.SettlesType, Late.SettlesAttributes, TypeExpr.nodes, TypeExpr.withCounts] using ha
  · exact counted_failAt_bind _ _

end

/-! ## The knot -/

theorem leaves_within (depth : Nat) :
    LeavesExpr L (unaryWithin depth) known ∧ LeavesType L (typeWithin depth) known := by
  induction depth with
  | zero => exact ⟨counted_failHere _, counted_failHere _⟩
  | succ depth ih =>
    exact ⟨leaves_unaryStep ih.1 (leaves_binaryLevels _ ih.1) ih.2,
      leaves_typeStep (leaves_binaryLevels _ ih.1) (leaves_binaryLevels _ ih.1) ih.2⟩

theorem leaves_unary : LeavesExpr L unary known :=
  quiet_depthAhead.counted fun depth => (leaves_within depth).1

theorem leaves_expression : LeavesExpr L expression known :=
  quiet_depthAhead.counted fun depth => leaves_binaryLevels _ (leaves_within depth).1

theorem leaves_typeExpr : LeavesType L typeExpr known :=
  quiet_depthAhead.counted fun depth => (leaves_within depth).2

theorem leaves_attributes : Leaves L attributes known (L.SettlesAttributes known) :=
  leaves_attributesOf leaves_expression

end Parser

end Wgsl
