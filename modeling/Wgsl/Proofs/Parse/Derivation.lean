import Wgsl.Proofs.Parse.Cursor
import Wgsl.Proofs.Parse.Grammar

/-! # What is parsed is spelled

Whenever an expression is parsed where no type has been declared and no name of a type stands ahead,
the tokens taken spell it and it is grouped by precedence.

* `ParseState.Took`: what lies between two states of a parser.
* `Parser.Parses`: the property, with the least rank of the expression.
* `Parser.parses_unaryWithin`: the induction on nesting; each level of operators adds to it what one
  round of its loop keeps.
-/

namespace Wgsl
set_option autoImplicit false

/-! ## Tokens taken -/

/-- Nothing has been declared, and no name ahead starts a type or a bit cast. -/
structure ParseState.Plain (s : ParseState) : Prop where
  last : s.last.kind = .eof
  rest : ∀ t ∈ s.rest, t.kind ≠ .eof ∧ t.IsPlain
  context : ∀ name, s.context.isTypeName name = false

namespace ParseState

/-- The tokens were taken on the way from one state to another. -/
def Took (s s' : ParseState) (ts : List Token) : Prop := s'.Plain ∧ s.rest = ts ++ s'.rest

variable {s s' s'' : ParseState}

theorem Plain.took (h : s.Plain) : s.Took s [] := ⟨h, rfl⟩

theorem Took.trans {ts ts' : List Token} (h : s.Took s' ts) (h' : s'.Took s'' ts') :
    s.Took s'' (ts ++ ts') := ⟨h'.1, by rw [h.2, h'.2, List.append_assoc]⟩

/-- A token that is not the end mark is ahead. -/
theorem Plain.rest_eq (h : s.Plain) (hk : s.head.kind ≠ .eof) : s.rest = s.head :: s.rest.tail := by
  cases hr : s.rest with
  | nil =>
    rw [head, hr] at hk
    exact absurd h.last hk
  | cons t r =>
    rw [head, hr]
    rfl

/-- Where the end mark is next, nothing is ahead. -/
theorem Plain.rest_eq_nil (h : s.Plain) (hk : s.head.kind = .eof) : s.rest = [] := by
  cases hr : s.rest with
  | nil => rfl
  | cons t r =>
    rw [head, hr] at hk
    exact absurd hk (h.rest t (hr ▸ List.mem_cons_self ..)).1

theorem Plain.step (h : s.Plain) (hk : s.head.kind ≠ .eof) :
    s.Took (s.withRest s.rest.tail) [s.head] :=
  ⟨⟨h.last, fun t ht => h.rest t (List.mem_of_mem_tail ht), h.context⟩, h.rest_eq hk⟩

theorem Plain.head_isPlain (h : s.Plain) : s.head.IsPlain := by
  intro hk
  have hne : s.head.kind ≠ .eof := by
    rw [hk]
    decide
  have hmem : s.head ∈ s.rest := by
    rw [h.rest_eq hne]
    exact List.mem_cons_self ..
  exact (h.rest _ hmem).2 hk

theorem Took.marked {ts : List Token} (h : s.Took s' ts) (id : NodeId) :
    s.Took { s' with nextId := id } ts := ⟨⟨h.1.last, h.1.rest, h.1.context⟩, h.2⟩

end ParseState

namespace Parser

/-- Every expression that the parser gives has at least the rank, is grouped by precedence, and is
spelled by the tokens taken. -/
def Parses (k : Nat) (p : Parser Expr) : Prop :=
  ∀ s e s', s.Plain → p.run s = .ok (e, s') →
    ∃ ts, s.Took s' ts ∧ e.Spells ts ∧ e.Normal ∧ k ≤ e.rank

variable {p : Parser Expr}

/-! ## Levels of operators -/

/-- One round of a chain. -/
def chainStep (ops : List (TokenKind × BinaryOp)) (operand : Parser Expr) (left : Expr) :
    Parser (Step Expr) := do
  match ops.lookup (← peekKind) with
  | none => return .done left
  | some op =>
    let _ ← advance
    let right ← operand
    return .next (.binary (← freshMark left.line) op left right)

theorem chain_eq (ops : List (TokenKind × BinaryOp)) (operand : Parser Expr) :
    chain ops operand = operand >>= fun first => loop first (chainStep ops operand) := rfl

theorem parses_chain {k : Nat} (hk : k < 10) (h : Parses (k + 1) p) :
    Parses k (chain (opsAt k) p) := by
  intro s e s' hs hrun
  rw [chain_eq] at hrun
  obtain ⟨first, s1, hfirst, hrun⟩ := bind_ok hrun
  obtain ⟨ts, htook, hspells, hnormal, hrank⟩ := h s first s1 hs hfirst
  -- the operands joined so far are an expression of this level
  let Inv (left : Expr) (t : ParseState) : Prop :=
    ∃ ts, s.Took t ts ∧ left.Spells ts ∧ left.Normal ∧ k ≤ left.rank
  refine iterate_ok Inv Inv ?_ ?_ _ _ _ _ _
    ⟨ts, htook, hspells, hnormal, Nat.le_of_succ_le hrank⟩ hrun
  · intro left t last t' hinv hstep
    rw [chainStep, run_peekKind] at hstep
    split at hstep
    · cases hstep
      exact hinv
    · obtain ⟨right, t1, hright, hstep⟩ := bind_ok ((run_advance _).symm.trans hstep)
      cases hstep
  · intro left t next t' hinv hstep
    rw [chainStep, run_peekKind] at hstep
    split at hstep
    · cases hstep
    · rename_i op hop
      obtain ⟨hlevel, htoken⟩ := (lookup_opsAt hk).mp hop
      obtain ⟨before, htook, hspells, hnormal, hrank⟩ := hinv
      have hne : t.head.kind ≠ .eof := by
        rw [← htoken]
        cases op <;> decide
      obtain ⟨right, t1, hright, hstep⟩ := bind_ok ((run_advance _).symm.trans hstep)
      cases hstep
      have htaken := htook.1.step hne
      obtain ⟨behind, htook', hspells', hnormal', hrank'⟩ := h _ right t1 htaken.1 hright
      refine ⟨before ++ ([t.head] ++ behind), (htook.trans (htaken.trans htook')).marked _, ?_, ?_, ?_⟩
      · exact ⟨before, t.head, behind, rfl, htoken.symm, hspells, hspells'⟩
      · exact ⟨by rw [hlevel]; exact hrank, by rw [hlevel]; exact hrank', hnormal, hnormal'⟩
      · exact Nat.le_of_eq hlevel.symm

/-- The levels from the `k`-th on over operands of the rank of unary expressions. -/
theorem parses_binaryLevels (h : Parses 10 p) {k : Nat} (hk : k ≤ 10) :
    Parses k (binaryLevels (levels.drop k) p) := by
  induction hk using Nat.decreasingInduction with
  | self => exact h
  | of_succ k hk ih =>
    rw [drop_levels hk]
    exact parses_chain hk ih

/-! ## Arguments -/

/-- One round of a list of arguments; those found so far stand latest first. -/
def itemStep (close : TokenKind) (item : Parser Expr) (items : List Expr) :
    Parser (Step (List Expr)) := do
  if ← check close then return .done items
  let x ← item
  if ← accept .comma then return .next (x :: items) else return .done (x :: items)

theorem commaList_eq (close : TokenKind) (item : Parser Expr) :
    commaList close item = List.reverse <$> loop [] (itemStep close item) := rfl

/-- Each token of the arguments so far is one of theirs, whatever further arguments follow. -/
def TookItems (s t : ParseState) (items : List Expr) : Prop :=
  ∃ ts, s.Took t ts ∧ Expr.AllNormal items.reverse ∧
    ∀ later more, Expr.SpellArgs later more → Expr.SpellArgs (items.reverse ++ later) (ts ++ more)

theorem parses_commaList (h : Parses 0 p) (close : TokenKind) {s s' : ParseState}
    {args : List Expr} (hs : s.Plain) (hrun : (commaList close p).run s = .ok (args, s')) :
    ∃ ts, s.Took s' ts ∧ Expr.AllNormal args ∧ Expr.SpellArgs args ts := by
  have hloop : ∃ items, args = items.reverse ∧
      (iterate (itemStep close p) s.budget []).run s = .ok (items, s') := by
    rw [commaList_eq, run_map, run_loop] at hrun
    cases hi : (iterate (itemStep close p) s.budget []).run s with
    | error _ =>
      rw [hi] at hrun
      cases hrun
    | ok r =>
      rw [hi] at hrun
      cases hrun
      exact ⟨r.1, rfl, rfl⟩
  obtain ⟨items, rfl, hitems⟩ := hloop
  let Post (items : List Expr) (t : ParseState) : Prop :=
    ∃ ts, s.Took t ts ∧ Expr.AllNormal items.reverse ∧ Expr.SpellArgs items.reverse ts
  -- an item that has been read, in front of what is still to come
  have read : ∀ items t x t', TookItems s t items → p.run t = .ok (x, t') →
      ∃ ts first, s.Took t' (ts ++ first) ∧ x.Spells first ∧
        Expr.AllNormal (items.reverse ++ [x]) ∧ ∀ later more, Expr.SpellArgs later more →
          Expr.SpellArgs (items.reverse ++ later) (ts ++ more) := by
    intro items t x t' hinv hx
    obtain ⟨ts, htook, hnormal, hmore⟩ := hinv
    obtain ⟨first, htook', hspells, hx', -⟩ := h t x t' htook.1 hx
    exact ⟨ts, first, htook.trans htook', hspells, hnormal.append ⟨hx', trivial⟩, hmore⟩
  refine iterate_ok (fun items t => TookItems s t items) Post ?_ ?_ _ _ _ _ _ ?_ hitems
  · intro items t last t' hinv hstep
    rw [itemStep, run_check] at hstep
    split at hstep
    · cases hstep
      obtain ⟨ts, htook, hnormal, hmore⟩ := hinv
      have hall := hmore [] [] rfl
      rw [List.append_nil, List.append_nil] at hall
      exact ⟨ts, htook, hnormal, hall⟩
    · obtain ⟨x, t1, hx, hstep⟩ := bind_ok hstep
      obtain ⟨ts, first, htook, hspells, hnormal, hmore⟩ := read items t x t1 hinv hx
      rw [run_accept] at hstep
      split at hstep
      · cases hstep
      · cases hstep
        refine ⟨ts ++ first, htook, ?_, ?_⟩
        · rw [List.reverse_cons]
          exact hnormal
        · rw [List.reverse_cons]
          exact hmore [x] first ⟨first, hspells, .inl ⟨rfl, rfl⟩⟩
  · intro items t next t' hinv hstep
    rw [itemStep, run_check] at hstep
    split at hstep
    · cases hstep
    · obtain ⟨x, t1, hx, hstep⟩ := bind_ok hstep
      obtain ⟨ts, first, htook, hspells, hnormal, hmore⟩ := read items t x t1 hinv hx
      rw [run_accept] at hstep
      split at hstep
      · rename_i hcomma
        cases hstep
        have hne : t1.head.kind ≠ .eof := by
          rw [hcomma]
          decide
        refine ⟨ts ++ first ++ [t1.head], htook.trans (htook.1.step hne), ?_, ?_⟩
        · rw [List.reverse_cons]
          exact hnormal
        · intro later more hlater
          have hthese := hmore (x :: later) (first ++ t1.head :: more)
            ⟨first, hspells, .inr ⟨t1.head, more, rfl, hcomma, hlater⟩⟩
          simpa using hthese
      · cases hstep
  · exact ⟨[], hs.took, trivial, fun later more hlater => hlater⟩

/-- A token that was expected has been taken. -/
theorem expect_ok {α : Type} {kind : TokenKind} {purpose : String} {f : Token → Parser α}
    {s : ParseState} {r : α × ParseState} (hs : s.Plain) (hk : kind ≠ .eof)
    (h : (expect kind purpose >>= f).run s = .ok r) :
    s.head.kind = kind ∧ s.Took (s.withRest s.rest.tail) [s.head] ∧
      (f s.head).run (s.withRest s.rest.tail) = .ok r := by
  rw [run_expect] at h
  split at h
  · rename_i hkind
    exact ⟨hkind, hs.step (hkind ▸ hk), h⟩
  · cases h

theorem parses_arguments {α : Type} (h : Parses 0 p) {s : ParseState} {f : List Expr → Parser α}
    {r : α × ParseState} (hs : s.Plain) (hrun : (arguments p >>= f).run s = .ok r) :
    ∃ args s' opening inside closing, (f args).run s' = .ok r ∧
      s.Took s' (opening :: (inside ++ [closing])) ∧ opening.kind = .parenLeft ∧
        closing.kind = .parenRight ∧ Expr.AllNormal args ∧ Expr.SpellArgs args inside := by
  rw [arguments, bind_assoc] at hrun
  obtain ⟨hopen, htook, hrun⟩ := expect_ok hs (by decide) hrun
  rw [bind_assoc] at hrun
  obtain ⟨args, s1, hargs, hrun⟩ := bind_ok hrun
  obtain ⟨inside, htook', hnormal, hspells⟩ := parses_commaList h _ htook.1 hargs
  rw [bind_assoc] at hrun
  obtain ⟨hclose, htook'', hrun⟩ := expect_ok htook'.1 (by decide) hrun
  exact ⟨args, _, s.head, inside, s1.head, hrun, htook.trans (htook'.trans htook''), hopen, hclose,
    hnormal, hspells⟩

/-! ## Unary expressions -/

/-- One round of what trails an expression. -/
def trailingStep (expr : Parser Expr) (base : Expr) : Parser (Step Expr) := do
  if ← accept .bracketLeft then
    let index ← expr
    let _ ← expect .bracketRight "to close index"
    return .next (.index (← freshMark base.line) base index)
  else if ← accept .period then
    let name ← identifier
    return .next (.member (← freshMark base.line) base name)
  else return .done base

theorem trailing_eq (expr : Parser Expr) (base : Expr) :
    trailing expr base = loop base (trailingStep expr) := rfl

theorem run_trailingStep {expr : Parser Expr} {base : Expr} {s : ParseState} :
    (trailingStep expr base).run s =
      if s.head.kind = .bracketLeft then
        (do
          let index ← expr
          let _ ← expect .bracketRight "to close index"
          return .next (.index (← freshMark base.line) base index) : Parser _).run
            (s.withRest s.rest.tail)
      else if s.head.kind = .period then
        (do
          let name ← identifier
          return .next (.member (← freshMark base.line) base name) : Parser _).run
            (s.withRest s.rest.tail)
      else .ok (.done base, s) := by
  rw [trailingStep, run_accept]
  split
  · rfl
  · rw [if_neg Bool.false_ne_true, run_accept]
    split <;> rfl

theorem parses_trailing (h : Parses 0 p) {s t t' : ParseState} {base e : Expr} {ts : List Token}
    (htook : s.Took t ts) (hspells : base.Spells ts) (hnormal : base.Normal) (hrank : 11 ≤ base.rank)
    (hrun : (trailing p base).run t = .ok (e, t')) :
    ∃ ts, s.Took t' ts ∧ e.Spells ts ∧ e.Normal ∧ 11 ≤ e.rank := by
  rw [trailing_eq, run_loop] at hrun
  let Inv (base : Expr) (t : ParseState) : Prop :=
    ∃ ts, s.Took t ts ∧ base.Spells ts ∧ base.Normal ∧ 11 ≤ base.rank
  refine iterate_ok Inv Inv ?_ ?_ _ _ _ _ _ ⟨ts, htook, hspells, hnormal, hrank⟩ hrun
  · intro base t last t' hinv hstep
    rw [run_trailingStep] at hstep
    split at hstep
    · obtain ⟨i, t1, hi, hstep⟩ := bind_ok hstep
      rw [run_expect] at hstep
      split at hstep <;> cases hstep
    · split at hstep
      · rw [run_identifier] at hstep
        split at hstep <;> cases hstep
      · cases hstep
        exact hinv
  · intro base t next t' hinv hstep
    obtain ⟨before, htook, hspells, hnormal, hrank⟩ := hinv
    rw [run_trailingStep] at hstep
    split at hstep
    · rename_i hopen
      have hopening := htook.1.step (hopen ▸ by decide)
      obtain ⟨i, t1, hi, hstep⟩ := bind_ok hstep
      obtain ⟨inside, htook', hspells', hnormal', -⟩ := h _ i t1 hopening.1 hi
      obtain ⟨hclose, hclosing, hstep⟩ := expect_ok htook'.1 (by decide) hstep
      cases hstep
      refine ⟨before ++ ([t.head] ++ (inside ++ [t1.head])),
        (htook.trans (hopening.trans (htook'.trans hclosing))).marked _, ?_, ⟨hrank, hnormal, hnormal'⟩,
        Nat.le_refl _⟩
      exact ⟨before, t.head, inside, t1.head, rfl, hopen, hclose, hspells, hspells'⟩
    · split at hstep
      · rename_i hpoint
        have hpointing := htook.1.step (hpoint ▸ by decide)
        rw [run_identifier] at hstep
        split at hstep
        · rename_i hname
          have hnaming := hpointing.1.step (hname ▸ by decide)
          cases hstep
          refine ⟨before ++ ([t.head] ++ [_]), (htook.trans (hpointing.trans hnaming)).marked _, ?_,
            ⟨hrank, hnormal⟩, Nat.le_refl _⟩
          exact ⟨before, t.head, _, rfl, hpoint, ⟨hname, rfl⟩, hspells⟩
        · cases hstep
      · cases hstep

/-- Where no name starts a type, a name is a call or a variable. -/
theorem parses_named (h : Parses 0 p) {type : Parser TypeExpr} {s s' : ParseState} {e : Expr}
    (hs : s.Plain) (hname : s.head.kind = .identifier) (hrun : (named p type).run s = .ok (e, s')) :
    ∃ ts, s.Took s' ts ∧ e.Spells ts ∧ e.Normal ∧ 11 ≤ e.rank := by
  obtain ⟨hbuiltin, hcast⟩ := hs.head_isPlain hname
  have htaken := hs.step (hname ▸ by decide)
  rw [named, run_peek, run_peekSecond, if_neg hcast, run_get, hbuiltin, hs.context] at hrun
  simp only [Bool.or_false, Bool.false_and, Bool.false_eq_true, if_false, run_advance] at hrun
  split at hrun
  · obtain ⟨args, s1, opening, inside, closing, hargs, htook, hopen, hclose, hnormal, hspells⟩ :=
      parses_arguments h htaken.1 hrun
    cases hargs
    exact ⟨_, (htaken.trans htook).marked _,
      ⟨s.head, opening, inside, closing, rfl, ⟨hname, rfl⟩, hopen, hclose, hspells⟩, hnormal,
      Nat.le_refl _⟩
  · cases hrun
    exact ⟨_, htaken.marked _, ⟨s.head, rfl, hname, rfl⟩, trivial, Nat.le_refl _⟩

/-- A token that is a literal by itself. -/
def literalForm (token : Token) (value? : Option Literal) (cause : ParseCause) : Parser Expr := do
  let _ ← advance
  match value? with
  | some value => return .literal (← freshMark token.line) value
  | none => failAt token cause

/-- A literal, a parenthesis or a name, by the kind of the next token. -/
theorem run_primary {expr : Parser Expr} {type : Parser TypeExpr} {s : ParseState} :
    (primary expr type).run s =
      match s.head.kind with
      | .intLiteral => (literalForm s.head s.head.literal? .invalidInteger).run s
      | .floatLiteral => (literalForm s.head s.head.literal? .invalidFloat).run s
      | .kwTrue | .kwFalse => (literalForm s.head s.head.literal? .expectedExpression).run s
      | .parenLeft =>
        (do
          let inner ← expr
          let _ ← expect .parenRight "to close parenthesized expression"
          return .group (← freshMark s.head.line) inner : Parser Expr).run (s.withRest s.rest.tail)
      | .identifier => (named expr type).run s
      | _ => .error (.parse .expectedExpression s.head.line s.head.lexeme) := by
  rw [primary, run_peek, Token.literal?]
  split <;> rename_i hk <;> simp only [hk] <;> rfl

theorem parses_literalForm {s s' : ParseState} {e : Expr} {cause : ParseCause} (hs : s.Plain)
    (hk : s.head.kind ≠ .eof)
    (hrun : (literalForm s.head s.head.literal? cause).run s = .ok (e, s')) :
    ∃ ts, s.Took s' ts ∧ e.Spells ts ∧ e.Normal ∧ 11 ≤ e.rank := by
  unfold literalForm at hrun
  rw [run_advance] at hrun
  split at hrun
  · rename_i value hvalue
    cases hrun
    exact ⟨_, (hs.step hk).marked _, ⟨s.head, rfl, hvalue⟩, trivial, Nat.le_refl _⟩
  · cases hrun

theorem parses_primary (h : Parses 0 p) {type : Parser TypeExpr} {s s' : ParseState} {e : Expr}
    (hs : s.Plain) (hrun : (primary p type).run s = .ok (e, s')) :
    ∃ ts, s.Took s' ts ∧ e.Spells ts ∧ e.Normal ∧ 11 ≤ e.rank := by
  rw [run_primary] at hrun
  split at hrun
  case h_1 hk => exact parses_literalForm hs (hk ▸ by decide) hrun
  case h_2 hk => exact parses_literalForm hs (hk ▸ by decide) hrun
  case h_3 hk => exact parses_literalForm hs (hk ▸ by decide) hrun
  case h_4 hk => exact parses_literalForm hs (hk ▸ by decide) hrun
  case h_5 hopen =>
    have hopening := hs.step (hopen ▸ by decide)
    obtain ⟨inner, s1, hinner, hrun⟩ := bind_ok hrun
    obtain ⟨inside, htook, hspells, hnormal, -⟩ := h _ inner s1 hopening.1 hinner
    obtain ⟨hclose, hclosing, hrun⟩ := expect_ok htook.1 (by decide) hrun
    cases hrun
    exact ⟨_, (hopening.trans (htook.trans hclosing)).marked _,
      ⟨s.head, inside, s1.head, rfl, hopen, hclose, hspells⟩, hnormal, Nat.le_refl _⟩
  case h_6 hk => exact parses_named h hs hk hrun
  case h_7 => cases hrun

theorem parses_unaryStep {operand : Parser Expr} (hoperand : Parses 10 operand) (h : Parses 0 p)
    (type : Parser TypeExpr) : Parses 10 (unaryStep operand p type) := by
  intro s e s' hs hrun
  rw [unaryStep, run_peekKind] at hrun
  split at hrun
  · rename_i op hop
    have htoken := unaryOp?_eq_some hop
    have htaken := hs.step (by rw [← htoken]; cases op <;> decide)
    rw [run_advance] at hrun
    obtain ⟨inner, s1, hinner, hrun⟩ := bind_ok hrun
    obtain ⟨behind, htook, hspells, hnormal, hrank⟩ := hoperand _ inner s1 htaken.1 hinner
    cases hrun
    exact ⟨_, (htaken.trans htook).marked _, ⟨s.head, behind, rfl, htoken.symm, hspells⟩,
      ⟨hrank, hnormal⟩, Nat.le_refl _⟩
  · obtain ⟨base, s1, hbase, hrun⟩ := bind_ok hrun
    obtain ⟨ts, htook, hspells, hnormal, hrank⟩ := parses_primary h hs hbase
    obtain ⟨ts, htook, hspells, hnormal, hrank⟩ := parses_trailing h htook hspells hnormal hrank hrun
    exact ⟨ts, htook, hspells, hnormal, Nat.le_of_succ_le hrank⟩

/-! ## Expressions -/

/-- Unary expressions of every depth, by induction on the depth. -/
theorem parses_unaryWithin (depth : Nat) : Parses 10 (unaryWithin depth) := by
  induction depth with
  | zero =>
    intro s e s' _ hrun
    cases hrun
  | succ depth ih => exact parses_unaryStep ih (parses_binaryLevels ih (Nat.zero_le 10)) _

theorem parses_expression : Parses 0 expression := by
  intro s e s' hs hrun
  obtain ⟨depth, s1, hdepth, hrun⟩ := bind_ok hrun
  cases hdepth
  exact parses_binaryLevels (parses_unaryWithin _) (Nat.zero_le 10) s e s' hs hrun

/-- An expression with nothing behind it takes every token. -/
theorem parses_standaloneExpression {s s' : ParseState} {e : Expr} (hs : s.Plain)
    (hrun : standaloneExpression.run s = .ok (e, s')) : e.Spells s.rest ∧ e.Normal := by
  obtain ⟨e', s1, he, hrun⟩ := bind_ok hrun
  obtain ⟨ts, htook, hspells, hnormal, -⟩ := parses_expression s e' s1 hs he
  rw [atEnd, run_check] at hrun
  split at hrun
  · rename_i hend
    have hnil : s1.rest = [] := htook.1.rest_eq_nil (of_decide_eq_true hend)
    cases hrun
    rw [htook.2, hnil, List.append_nil]
    exact ⟨hspells, hnormal⟩
  · cases hrun

end Parser

end Wgsl
