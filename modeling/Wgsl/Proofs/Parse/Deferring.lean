import Wgsl.Proofs.Parse.ScopedCounts
import Wgsl.Proofs.Tree.Reached

/-! # Counts that are noted for the end

An array type whose count does not fold where it stands is noted with its number, and at the end the
noted counts are folded again and entered.

* `TypeExpr.Noted`: an array type without a count whose expression has been noted.
* `Parser.Defers`: a parser notes all such types that it makes; one lemma for each production of
  expressions, types and declared values.
-/

namespace Wgsl
set_option autoImplicit false

variable {noted : List (NodeId × Expr)}

/-! ## Noted types -/

/-- If the type is an array without a count, the expression for the count has been noted. -/
def TypeExpr.Noted (noted : List (NodeId × Expr)) : TypeExpr → Prop
  | .array id _ _ none (some e) => (id, e) ∈ noted
  | _ => True

/-- All types in a list have been noted. -/
def NotedAll (noted : List (NodeId × Expr)) (ts : List TypeExpr) : Prop := ∀ t ∈ ts, t.Noted noted

@[simp] theorem notedAll_nil : NotedAll noted [] := nofun

@[simp] theorem notedAll_append {ts us : List TypeExpr} :
    NotedAll noted (ts ++ us) ↔ NotedAll noted ts ∧ NotedAll noted us :=
  List.forall_mem_append

@[simp] theorem notedAll_cons {t : TypeExpr} {ts : List TypeExpr} :
    NotedAll noted (t :: ts) ↔ t.Noted noted ∧ NotedAll noted ts :=
  List.forall_mem_cons

@[simp] theorem TypeExpr.noted_named (id : NodeId) (attributes : List Attribute) (name : String) :
    (TypeExpr.named id attributes name).Noted noted := trivial

@[simp] theorem TypeExpr.noted_template (id : NodeId) (attributes : List Attribute) (name : String)
    (param : Option TypeExpr) (access space : Option String) :
    (TypeExpr.template id attributes name param access space).Noted noted := trivial

theorem notedAll_flatMap {α : Type} {reached : α → List TypeExpr} {items : List α} :
    NotedAll noted (items.flatMap reached) ↔ ∀ a ∈ items, NotedAll noted (reached a) := by
  simp only [NotedAll, List.mem_flatMap]
  exact ⟨fun h a ha t ht => h t ⟨a, ha, ht⟩, fun h t ⟨a, ha, ht⟩ => h a ha t ht⟩

theorem notedAll_listReached {es : List Expr} :
    NotedAll noted (Expr.listReached es) ↔ ∀ e ∈ es, NotedAll noted e.reached := by
  rw [Expr.listReached_eq]
  exact notedAll_flatMap

theorem notedAll_stmts {body : List Stmt} :
    NotedAll noted (Stmt.listReached body) ↔ ∀ s ∈ body, NotedAll noted s.reached := by
  rw [Stmt.listReached_eq]
  exact notedAll_flatMap

namespace Parser

variable {α β : Type}

/-! ## Parsers -/

/-- What has been noted when the parser ends are some of the noted counts; then so is what had been
noted before, and the result has the property. -/
def Defers (noted : List (NodeId × Expr)) (x : Parser α) (Q : α → Prop) : Prop :=
  ∀ s a s', x.run s = .ok (a, s') → s'.context.deferred ⊆ noted → s.context.deferred ⊆ noted ∧ Q a

section

variable {x : Parser α} {f : α → Parser β} {P Q' : α → Prop} {Q : β → Prop}

theorem defers_pure {a : α} (h : Q' a) : Defers noted (pure a) Q' := by
  intro s b s' hrun hs
  cases hrun
  exact ⟨hs, h⟩

/-- What is known of the first result may be used for the second. -/
theorem Defers.bind (hx : Defers noted x P) (hf : ∀ a, Defers noted (f a) fun b => P a → Q b) :
    Defers noted (x >>= f) Q := by
  intro s b s' hrun hs
  obtain ⟨a, s₁, h₁, h₂⟩ := bind_ok hrun
  obtain ⟨hs₁, hb⟩ := hf a s₁ b s' h₂ hs
  obtain ⟨hs₀, ha⟩ := hx s a s₁ h₁ hs₁
  exact ⟨hs₀, hb ha⟩

theorem Defers.imp (hx : Defers noted x P) (h : ∀ a, P a → Q' a) : Defers noted x Q' := by
  intro s a s' hrun hs
  obtain ⟨hs₀, ha⟩ := hx s a s' hrun hs
  exact ⟨hs₀, h a ha⟩

theorem Defers.map (hx : Defers noted x P) {g : α → β} (h : ∀ a, P a → Q (g a)) :
    Defers noted (g <$> x) Q := by
  rw [map_eq_pure_bind]
  exact hx.bind fun a => defers_pure (h a)

theorem Quiet.defers (hx : Quiet x) (hf : ∀ a, Defers noted (f a) Q) : Defers noted (x >>= f) Q := by
  intro s b s' hrun hs
  obtain ⟨a, s₁, h₁, h₂⟩ := bind_ok hrun
  obtain ⟨⟨-, hcontext⟩, -⟩ := hx s a s₁ h₁
  rw [← hcontext]
  exact hf a s₁ b s' h₂ hs

theorem defers_failAt (token : Token) (cause : ParseCause) :
    Defers noted (failAt token cause) Q' := fun _ _ _ h => nomatch h

theorem defers_failAt_bind (token : Token) (cause : ParseCause) :
    Defers noted (failAt token cause >>= f) Q := fun _ _ _ h => nomatch h

theorem defers_failHere (cause : ParseCause) : Defers noted (failHere cause) Q' :=
  quiet_peek.defers fun _ => defers_failAt _ _

theorem defers_fresh {f : NodeId → Parser β} (hf : ∀ id, Defers noted (f id) Q) :
    Defers noted (fresh >>= f) Q := by
  intro s b s' hrun
  rw [run_fresh] at hrun
  exact hf s.nextId { s with nextId := s.nextId + 1 } b s' hrun

theorem defers_freshMark {line : Nat} {f : Mark → Parser β} (hf : ∀ k, Defers noted (f k) Q) :
    Defers noted (freshMark line >>= f) Q := by
  intro s b s' hrun
  rw [run_freshMark] at hrun
  exact hf _ { s with nextId := s.nextId + 1 } b s' hrun

/-- Changes of the other tables are of no account here. -/
theorem defers_modifyContext {g : ParseContext → ParseContext} {f : Unit → Parser β}
    (hg : ∀ c, (g c).deferred = c.deferred) (hf : ∀ u, Defers noted (f u) Q) :
    Defers noted (modifyContext g >>= f) Q := by
  intro s b s' hrun hs
  obtain ⟨hs₁, hb⟩ := hf () { s with context := g s.context } b s' hrun hs
  rw [hg] at hs₁
  exact ⟨hs₁, hb⟩

/-- What every round keeps, a repetition keeps. -/
theorem defers_loop {init : α} {step : α → Parser (Step α)}
    (hstep : ∀ a, Defers noted (step a) fun r => P a → P r.value) :
    Defers noted (loop init step) fun a => P init → P a := by
  intro s a s' hrun
  rw [run_loop] at hrun
  let Kept (a : α) (t : ParseState) : Prop :=
    t.context.deferred ⊆ noted → s.context.deferred ⊆ noted ∧ (P init → P a)
  have round : ∀ a t (r : Step α) t', Kept a t → (step a).run t = .ok (r, t') → Kept r.value t' := by
    intro a t r t' hkept hr hs
    obtain ⟨hs₁, hr⟩ := hstep a t r t' hr hs
    obtain ⟨hs₀, ha⟩ := hkept hs₁
    exact ⟨hs₀, hr ∘ ha⟩
  exact iterate_ok Kept Kept (fun a t b t' hk hb => round a t _ t' hk hb)
    (fun a t b t' hk hb => round a t _ t' hk hb) _ _ _ _ _ (fun hs => ⟨hs, id⟩) hrun

theorem defers_loop_of {init : α} {step : α → Parser (Step α)} (hinit : P init)
    (hstep : ∀ a, Defers noted (step a) fun r => P a → P r.value) :
    Defers noted (loop init step) P := (defers_loop hstep).imp fun _ h => h hinit

end

theorem defers_commaList {item : Parser α} {Q : α → Prop} (h : Defers noted item Q)
    (close : TokenKind) : Defers noted (commaList close item) fun items => ∀ a ∈ items, Q a := by
  have nothing : ∀ a ∈ ([] : List α), Q a := fun _ h => nomatch h
  refine (defers_loop_of nothing fun items => ?_).map fun items hi => by simpa using hi
  refine (quiet_check close).defers fun b => ?_
  split
  · exact defers_pure id
  · refine h.bind fun a => (quiet_accept .comma).defers fun b => ?_
    split <;> exact defers_pure fun ha hi => by simpa using ⟨ha, hi⟩

/-! ## Expressions -/

abbrev DefersExpr (noted : List (NodeId × Expr)) (x : Parser Expr) : Prop :=
  Defers noted x fun e => NotedAll noted e.reached

abbrev DefersType (noted : List (NodeId × Expr)) (x : Parser TypeExpr) : Prop :=
  Defers noted x fun t => NotedAll noted t.reached

section

variable {operand expr shift : Parser Expr} {type : Parser TypeExpr}

theorem defers_chain (ops : List (TokenKind × BinaryOp)) (h : DefersExpr noted operand) :
    DefersExpr noted (chain ops operand) := by
  refine h.bind fun first => defers_loop (P := fun e : Expr => NotedAll noted e.reached) fun left => ?_
  refine quiet_peekKind.defers fun kind => ?_
  split
  · exact defers_pure id
  · refine quiet_advance.defers fun _ => h.bind fun right => defers_freshMark fun k => ?_
    refine defers_pure fun hr hl => ?_
    simpa [Expr.reached] using ⟨hl, hr⟩

theorem defers_binaryLevels (ls : List (List (TokenKind × BinaryOp))) (h : DefersExpr noted operand) :
    DefersExpr noted (binaryLevels ls operand) := by
  unfold binaryLevels
  induction ls with
  | nil => exact h
  | cons ops ls ih => exact defers_chain ops ih

theorem defers_arguments (h : DefersExpr noted expr) :
    Defers noted (arguments expr) fun args => NotedAll noted (Expr.listReached args) := by
  refine (quiet_expect _ _).defers fun _ => (defers_commaList h _).bind fun args => ?_
  exact (quiet_expect _ _).defers fun _ => defers_pure notedAll_listReached.2

/-- The arguments of attributes are not among the types that are reached. -/
theorem defers_attributesOf (h : DefersExpr noted expr) :
    Defers noted (attributesOf expr) fun _ => True := by
  refine (defers_loop_of (P := fun _ => True) trivial fun found => ?_).map fun _ => id
  refine (quiet_check _).defers fun b => ?_
  split
  · refine quiet_advance.defers fun _ => quiet_advance.defers fun name => ?_
    dsimp only
    split
    · refine (quiet_accept _).defers fun b => ?_
      split
      · refine (defers_commaList h _).bind fun args => (quiet_expect _ _).defers fun _ => ?_
        exact defers_pure fun _ => id
      · exact defers_pure id
    · exact defers_failAt_bind _ _
  · exact defers_pure id

theorem defers_trailing (h : DefersExpr noted expr) (base : Expr) :
    Defers noted (trailing expr base) fun e => NotedAll noted base.reached → NotedAll noted e.reached := by
  refine defers_loop (P := fun e : Expr => NotedAll noted e.reached) fun base => ?_
  refine (quiet_accept _).defers fun b => ?_
  split
  · refine h.bind fun index => (quiet_expect _ _).defers fun _ => defers_freshMark fun k => ?_
    refine defers_pure fun hi hb => ?_
    simpa [Expr.reached] using ⟨hb, hi⟩
  · refine (quiet_accept _).defers fun b => ?_
    split
    · refine quiet_identifier.defers fun name => defers_freshMark fun k => defers_pure fun hb => ?_
      simpa [Expr.reached] using hb
    · exact defers_pure id

theorem defers_named (h : DefersExpr noted expr) (ht : DefersType noted type) :
    DefersExpr noted (named expr type) := by
  refine quiet_peek.defers fun token => quiet_peekSecond.defers fun second => ?_
  split
  · refine quiet_advance.defers fun _ => (quiet_expect _ _).defers fun _ => ht.bind fun ty => ?_
    refine (quiet_expect _ _).defers fun _ => (quiet_expect _ _).defers fun _ => h.bind fun value => ?_
    refine (quiet_accept _).defers fun _ => (quiet_expect _ _).defers fun _ => ?_
    refine defers_freshMark fun k => defers_pure fun hv ht => ?_
    simpa [Expr.reached] using ⟨ht, hv⟩
  · refine quiet_get.defers fun s => ?_
    extract_lets isType opensTemplate
    split
    · refine ht.bind fun ty => (defers_arguments h).bind fun args => defers_freshMark fun k => ?_
      refine defers_pure fun ha ht => ?_
      simpa [Expr.reached] using ⟨ht, ha⟩
    · refine quiet_advance.defers fun _ => ?_
      split
      · refine (defers_arguments h).bind fun args => defers_freshMark fun k => defers_pure fun ha => ?_
        simpa [Expr.reached] using ha
      · exact defers_freshMark fun k => defers_pure notedAll_nil

theorem defers_primary (h : DefersExpr noted expr) (ht : DefersType noted type) :
    DefersExpr noted (primary expr type) := by
  refine quiet_peek.defers fun token => ?_
  extract_lets read
  have literal : ∀ value? cause, DefersExpr noted (read value? cause) := by
    intro value? cause
    refine quiet_advance.defers fun _ => ?_
    cases value? with
    | some value => exact defers_freshMark fun k => defers_pure notedAll_nil
    | none => exact defers_failAt _ _
  split
  · exact literal _ _
  · exact literal _ _
  · exact literal (some (.bool true)) .expectedExpression
  · exact literal (some (.bool false)) .expectedExpression
  · refine quiet_advance.defers fun _ => h.bind fun inner => (quiet_expect _ _).defers fun _ => ?_
    refine defers_freshMark fun k => defers_pure fun hi => ?_
    simpa [Expr.reached] using hi
  · exact defers_named h ht
  · exact defers_failAt _ _

theorem defers_unaryStep (ho : DefersExpr noted operand) (h : DefersExpr noted expr)
    (ht : DefersType noted type) : DefersExpr noted (unaryStep operand expr type) := by
  refine quiet_peekKind.defers fun kind => ?_
  split
  · refine quiet_advance.defers fun token => ho.bind fun inner => ?_
    refine defers_freshMark fun k => defers_pure fun hi => ?_
    simpa [Expr.reached] using hi
  · exact (defers_primary h ht).bind fun base => defers_trailing h base

/-! ## Types -/

/-- The element of an array. What its count expression names is not reached. -/
theorem defers_arrayParams (h : DefersExpr noted shift) (ht : DefersType noted type) :
    Defers noted (arrayParams shift type) fun params =>
      NotedAll noted (TypeExpr.paramReached params.1) := by
  have closed : ∀ (element : TypeExpr) (counted : Option UInt32 × Option Expr), Defers noted (do
      let _ ← expect .greaterThan "to close array type"
      return (some element, counted.1, counted.2)) fun params =>
        NotedAll noted element.reached → NotedAll noted (TypeExpr.paramReached params.1) :=
    fun element counted => (quiet_expect _ _).defers fun _ => defers_pure id
  refine (quiet_accept _).defers fun b => ?_
  split
  · refine ht.bind fun element => (quiet_accept _).defers fun b => ?_
    split
    · refine (quiet_check _).defers fun b => ?_
      split
      · exact closed element (none, none)
      · refine h.bind fun e => quiet_get.defers fun s => (quiet_lift _).defers fun count => ?_
        exact (closed element (count, some e)).imp fun params hp _ => hp
    · exact closed element (none, none)
  · exact defers_pure notedAll_nil

/-- A new array type. Its count is noted if it does not fold. -/
theorem defers_array (attributes : List Attribute)
    (params : Option TypeExpr × Option UInt32 × Option Expr) : Defers noted (do
      let id ← fresh
      if let (none, some e) := params.2 then
        modifyContext fun c => { c with deferred := c.deferred ++ [(id, e)] }
      return TypeExpr.array id attributes params.1 params.2.1 params.2.2) fun t =>
        NotedAll noted (TypeExpr.paramReached params.1) → NotedAll noted t.reached := by
  obtain ⟨element, count, countExpr⟩ := params
  refine defers_fresh fun id => ?_
  have counted : ∀ {t : TypeExpr}, t.Noted noted → (t.reached = t :: TypeExpr.paramReached element) →
      NotedAll noted (TypeExpr.paramReached element) → NotedAll noted t.reached := fun ht e h =>
    e ▸ notedAll_cons.2 ⟨ht, h⟩
  cases count with
  | some n => exact defers_pure (counted trivial rfl)
  | none =>
    cases countExpr with
    | none => exact defers_pure (counted trivial rfl)
    | some e =>
      intro s t s' hrun hs
      cases hrun
      have here : (id, e) ∈ noted := hs (List.mem_append_right _ List.mem_cons_self)
      exact ⟨fun entry he => hs (List.mem_append_left _ he), counted here rfl⟩

theorem defers_templateParams (name : String) (ht : DefersType noted type) :
    Defers noted (templateParams name type) fun params =>
      NotedAll noted (TypeExpr.paramReached params.1) := by
  have rest : ∀ param : Option TypeExpr × Option String, Defers noted (do
        let access ← do
          if ← accept .comma then
            if ← check .greaterThan then pure none else pure (some (← identifier))
          else pure none
        let _ ← expect .greaterThan "to close template parameters"
        return (param.1, access, param.2)) fun params =>
          NotedAll noted (TypeExpr.paramReached param.1) →
            NotedAll noted (TypeExpr.paramReached params.1) := by
    intro param
    have closed : ∀ access : Option String, Defers noted (do
        let _ ← expect .greaterThan "to close template parameters"
        return (param.1, access, param.2)) fun params =>
          NotedAll noted (TypeExpr.paramReached param.1) →
            NotedAll noted (TypeExpr.paramReached params.1) := fun access =>
      (quiet_expect _ _).defers fun _ => defers_pure id
    refine (quiet_accept _).defers fun b => ?_
    split
    · refine (quiet_check _).defers fun b => ?_
      split
      · exact closed none
      · exact quiet_identifier.defers fun access => closed (some access)
    · exact closed none
  refine (quiet_accept _).defers fun b => ?_
  split
  · dsimp only
    split
    · refine quiet_identifier.defers fun space => (quiet_expect _ _).defers fun _ => ?_
      exact ht.bind fun t => rest (some t, some space)
    · split
      · refine quiet_identifier.defers fun space => ?_
        exact (rest (none, some space)).imp fun params hp => hp notedAll_nil
      · exact ht.bind fun t => rest (some t, none)
  · exact defers_pure notedAll_nil

theorem defers_typeStep (he : DefersExpr noted expr) (h : DefersExpr noted shift)
    (ht : DefersType noted type) : DefersType noted (typeStep expr shift type) := by
  refine (defers_attributesOf he).bind fun attributes => quiet_advance.defers fun token => ?_
  refine Defers.imp ?_ fun t ht _ => ht
  dsimp only
  split
  · split
    · exact (defers_arrayParams h ht).bind fun params => defers_array attributes params
    · split
      · refine defers_fresh fun first => defers_fresh fun id => defers_pure ?_
        simp [TypeExpr.reached, TypeExpr.paramReached]
      · split
        · refine (defers_templateParams _ ht).bind fun params => defers_fresh fun id => ?_
          refine defers_pure fun hp => ?_
          simpa [TypeExpr.reached] using hp
        · refine defers_fresh fun id => defers_pure ?_
          simp [TypeExpr.reached]
  · exact defers_failAt_bind _ _

end

/-! ## The knot -/

theorem defers_within (depth : Nat) :
    DefersExpr noted (unaryWithin depth) ∧ DefersType noted (typeWithin depth) := by
  induction depth with
  | zero => exact ⟨defers_failHere _, defers_failHere _⟩
  | succ depth ih =>
    exact ⟨defers_unaryStep ih.1 (defers_binaryLevels _ ih.1) ih.2,
      defers_typeStep (defers_binaryLevels _ ih.1) (defers_binaryLevels _ ih.1) ih.2⟩

theorem defers_unary : DefersExpr noted unary :=
  quiet_depthAhead.defers fun depth => (defers_within depth).1

theorem defers_expression : DefersExpr noted expression :=
  quiet_depthAhead.defers fun depth => defers_binaryLevels _ (defers_within depth).1

theorem defers_typeExpr : DefersType noted typeExpr :=
  quiet_depthAhead.defers fun depth => (defers_within depth).2

theorem defers_attributes : Defers noted attributes fun _ => True :=
  defers_attributesOf defers_expression

/-! ## Declared values -/

theorem defers_typeAnnotation :
    Defers noted typeAnnotation fun t? => NotedAll noted (TypeExpr.paramReached t?) := by
  refine (quiet_accept _).defers fun b => ?_
  split
  · exact defers_typeExpr.bind fun t => defers_pure id
  · exact defers_pure notedAll_nil

theorem defers_initializer :
    Defers noted initializer fun e? => NotedAll noted (Expr.optionReached e?) := by
  refine (quiet_accept _).defers fun b => ?_
  split
  · exact defers_expression.bind fun e => defers_pure id
  · exact defers_pure notedAll_nil

abbrev DefersValue (noted : List (NodeId × Expr)) (x : Parser VarDecl) : Prop :=
  Defers noted x fun v => NotedAll noted v.reached

theorem defers_varDecl (attributes : List Attribute) : DefersValue noted (varDecl attributes) := by
  refine (quiet_expect _ _).defers fun token => (quiet_accept _).defers fun b => ?_
  have rest : ∀ space : Option String × Option String, DefersValue noted (do
      let name ← identifier
      let type ← typeAnnotation
      let value ← initializer
      return { name, type, storage := space.1, access := space.2, value, attributes,
               line := token.line }) := by
    refine fun space => quiet_identifier.defers fun name => defers_typeAnnotation.bind fun type => ?_
    exact defers_initializer.bind fun value => defers_pure fun hv ht => notedAll_append.2 ⟨ht, hv⟩
  split
  · refine quiet_identifier.defers fun storage => (quiet_accept _).defers fun b => ?_
    split
    · refine quiet_identifier.defers fun access => ?_
      rw [pure_bind]
      exact (quiet_expect _ _).defers fun _ => rest (some storage, some access)
    · rw [pure_bind]
      exact (quiet_expect _ _).defers fun _ => rest (some storage, none)
  · exact rest (none, none)

theorem defers_constantDecl (attributes : List Attribute) :
    DefersValue noted (constantDecl attributes) := by
  refine quiet_advance.defers fun token => quiet_identifier.defers fun name => ?_
  refine defers_typeAnnotation.bind fun type => (quiet_expect _ _).defers fun _ => ?_
  exact defers_expression.bind fun value => defers_pure fun hv ht => notedAll_append.2 ⟨ht, hv⟩

theorem defers_overrideDecl (attributes : List Attribute) :
    DefersValue noted (overrideDecl attributes) := by
  refine (quiet_expect _ _).defers fun token => quiet_identifier.defers fun name => ?_
  refine defers_typeAnnotation.bind fun type => defers_initializer.bind fun value => ?_
  exact defers_pure fun hv ht => notedAll_append.2 ⟨ht, hv⟩

theorem defers_noteConstant {Q : β → Prop} {f : Unit → Parser β} (v : VarDecl)
    (hf : ∀ u, Defers noted (f u) Q) : Defers noted (noteConstant v >>= f) Q := by
  unfold noteConstant
  split
  · exact defers_modifyContext (fun _ => rfl) hf
  · exact hf ()

end Parser

end Wgsl
