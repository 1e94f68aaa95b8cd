import Wgsl.Proofs.Parse.Derivation
import Wgsl.Proofs.Tree.Unmarked

/-! # What is spelled is parsed

Whatever is grouped by precedence and spelled by the tokens ahead is what the parser gives, up to
numbers and lines, as long as the token behind it does not carry the expression on.

* `Parser.Stops`: what may stand behind an expression.
* `Parser.Reads`: the property, for expressions of a bounded number of tokens.
* `Parser.Arrives`: a repetition has taken the tokens of a part of the tree. Expressions grouped to the
  left are followed along their left operands with it.
-/

namespace Wgsl
set_option autoImplicit false

/-! ## Tokens ahead -/

namespace ParseState

/-- The state with other tokens ahead and another number for the next node. -/
def past (s : ParseState) (rest : List Token) (nextId : NodeId) : ParseState := { s with rest, nextId }

/-- The tokens are those ahead, and the bound on repetitions exceeds them. -/
structure Ahead (s : ParseState) (ts : List Token) : Prop where
  plain : s.Plain
  rest : s.rest = ts
  budget : ts.length < s.budget

variable {s : ParseState} {ts rest : List Token}

theorem Ahead.behind (h : s.Ahead (ts ++ rest)) (id : NodeId) : (s.past rest id).Ahead rest where
  plain := ⟨h.plain.last, fun t ht => h.plain.rest t (h.rest ▸ List.mem_append_right ts ht),
    h.plain.context⟩
  rest := rfl
  budget := Nat.lt_of_le_of_lt (by rw [List.length_append]; omega) h.budget

theorem Ahead.tail {t : Token} (h : s.Ahead (t :: rest)) (id : NodeId) : (s.past rest id).Ahead rest :=
  @Ahead.behind s [t] rest h id

theorem Ahead.head_eq {t : Token} (h : s.Ahead (t :: rest)) : s.head = t := by
  rw [ParseState.head, h.rest]
  rfl

theorem Ahead.withRest_tail {t : Token} (h : s.Ahead (t :: rest)) :
    s.withRest s.rest.tail = s.past rest s.nextId := by
  rw [h.rest]
  rfl

end ParseState

namespace Parser

/-- What stands behind an expression of the level does not carry it on. -/
structure Stops (k : Nat) (kind : TokenKind) : Prop where
  paren : kind ≠ .parenLeft
  bracket : kind ≠ .bracketLeft
  period : kind ≠ .period
  op : ∀ op : BinaryOp, k ≤ op.level → op.token ≠ kind

theorem Stops.mono {k k' : Nat} {kind : TokenKind} (h : Stops k kind) (hk : k ≤ k') :
    Stops k' kind :=
  { h with op := fun op hop => h.op op (Nat.le_trans hk hop) }

/-- An operator of a looser level stops an expression. -/
theorem stops_op {k : Nat} {op : BinaryOp} (h : op.level < k) : Stops k op.token where
  paren := by cases op <;> decide
  bracket := by cases op <;> decide
  period := by cases op <;> decide
  op op' hk heq := by
    rw [BinaryOp.token_injective heq] at hk
    omega

/-- What closes, separates or ends stops every expression. -/
theorem stops_closing {kind : TokenKind}
    (h : kind ∈ [TokenKind.parenRight, .bracketRight, .comma, .eof]) : Stops 0 kind where
  paren := by rintro rfl; revert h; decide
  bracket := by rintro rfl; revert h; decide
  period := by rintro rfl; revert h; decide
  op op _ := by rintro rfl; revert h; cases op <;> decide

/-- The parser gives the expression, up to numbers and lines, and leaves the rest. -/
def Gives (p : Parser Expr) (s : ParseState) (e : Expr) (rest : List Token) : Prop :=
  ∃ e' id, p.run s = .ok (e', s.past rest id) ∧ e'.unmarked = e.unmarked

/-- The parser gives every expression of at least the rank that is spelled by at most `n` tokens. -/
def Reads (k n : Nat) (p : Parser Expr) : Prop :=
  ∀ s e ts rest, s.Ahead (ts ++ rest) → ts.length ≤ n → e.Spells ts → e.Normal → k ≤ e.rank →
    Stops k (rest.headD s.last).kind → Gives p s e rest

variable {p : Parser Expr} {n : Nat}

/-! ## Repetitions along left operands -/

/-- A repetition has taken the tokens of an expression, and no more rounds than tokens. -/
def Arrives (first : Parser Expr) (step : Expr → Parser (Step Expr)) (s : ParseState) (e : Expr)
    (ts rest : List Token) : Prop :=
  ∃ e' id b, (first >>= fun a => loop a step).run s = (iterate step b e').run (s.past rest id) ∧
    e'.unmarked = e.unmarked ∧ s.budget ≤ b + ts.length

section Arrives

variable {first : Parser Expr} {step : Expr → Parser (Step Expr)} {s : ParseState} {e f : Expr}
  {ts ts' rest rest' : List Token}

theorem Gives.arrives (h : Gives first s e rest) : Arrives first step s e ts rest := by
  obtain ⟨e', id, hrun, he⟩ := h
  exact ⟨e', id, s.budget, by rw [run_bind_of hrun]; rfl, he, Nat.le_add_right ..⟩

theorem Arrives.next (h : Arrives first step s e ts rest) (hbudget : ts'.length < s.budget)
    (hts : ts.length < ts'.length)
    (hstep : ∀ e' id, e'.unmarked = e.unmarked → ∃ f' id',
      (step e').run (s.past rest id) = .ok (.next f', s.past rest' id') ∧ f'.unmarked = f.unmarked) :
    Arrives first step s f ts' rest' := by
  obtain ⟨e', id, b, hrun, he, hb⟩ := h
  obtain ⟨f', id', hf, hfe⟩ := hstep e' id he
  obtain ⟨b, rfl⟩ : ∃ b', b = b' + 1 := ⟨b - 1, by omega⟩
  exact ⟨f', id', b, by rw [hrun, iterate_next hf], hfe, by omega⟩

theorem Arrives.gives (h : Arrives first step s e ts rest) (hbudget : ts.length < s.budget)
    (hstep : ∀ e' id, (step e').run (s.past rest id) = .ok (.done e', s.past rest id)) :
    Gives (first >>= fun a => loop a step) s e rest := by
  obtain ⟨e', id, b, hrun, he, hb⟩ := h
  obtain ⟨b, rfl⟩ : ∃ b', b = b' + 1 := ⟨b - 1, by omega⟩
  exact ⟨e', id, by rw [hrun, iterate_done (hstep e' id)], he⟩

end Arrives

/-! ## Levels of operators -/

/-- A round that takes an operator of the level and its right operand. -/
theorem chainStep_next {k : Nat} (hk : k < 10) (h : Reads (k + 1) n p) {s : ParseState} {op : BinaryOp}
    {left left' right : Expr} {t : Token} {behind rest : List Token} {mark : Mark}
    (hs : s.Ahead (t :: (behind ++ rest))) (hop : op.level = k) (ht : t.kind = op.token)
    (hn : behind.length ≤ n) (hspells : right.Spells behind) (hnormal : right.Normal)
    (hrank : k < right.rank) (hstops : Stops (k + 1) (rest.headD s.last).kind)
    (hleft : left'.unmarked = left.unmarked) :
    ∃ e' id, (chainStep (opsAt k) p left').run s = .ok (.next e', s.past rest id) ∧
      e'.unmarked = (Expr.binary mark op left right).unmarked := by
  obtain ⟨right', id, hright, heq⟩ := h _ right behind rest (hs.tail s.nextId) hn hspells hnormal hrank
    hstops
  refine ⟨.binary ⟨id, left'.line⟩ op left' right', id + 1, ?_, ?_⟩
  · rw [chainStep, run_peekKind, hs.head_eq, (lookup_opsAt hk).mpr ⟨hop, ht.symm⟩]
    show (advance >>= _).run s = _
    rw [run_advance, hs.withRest_tail, run_bind_of hright]
    rfl
  · rw [Expr.unmarked, Expr.unmarked, hleft, heq]

theorem arrives_chain {k : Nat} (hk : k < 10) (h : Reads (k + 1) n p) {s : ParseState} {e : Expr}
    {ts rest : List Token} (hs : s.Ahead (ts ++ rest)) (hn : ts.length ≤ n) (hspells : e.Spells ts)
    (hnormal : e.Normal) (hrank : k ≤ e.rank) (hstops : Stops (k + 1) (rest.headD s.last).kind) :
    Arrives p (chainStep (opsAt k) p) s e ts rest := by
  obtain hlt | hlevel := Nat.lt_or_eq_of_le hrank
  · exact (h s e ts rest hs hn hspells hnormal hlt hstops).arrives
  obtain ⟨mark, op, lhs, rhs, rfl⟩ := e.eq_binary (hlevel ▸ hk)
  obtain ⟨before, t, behind, hts, ht, hbefore, hbehind⟩ := hspells
  obtain ⟨hl, hr, hnl, hnr⟩ := hnormal
  have hlength : ts.length = before.length + behind.length + 1 := by
    rw [hts, List.length_append, List.length_cons, Nat.add_assoc]
  have hbudget := hs.budget
  rw [List.length_append] at hbudget
  have hs' : s.Ahead (before ++ t :: (behind ++ rest)) := by
    rwa [hts, List.append_assoc, List.cons_append] at hs
  -- the left operand is of the same level, and the operator stops it
  have hleft : Arrives p (chainStep (opsAt k) p) s lhs before (t :: (behind ++ rest)) :=
    arrives_chain hk h hs' (by omega) hbefore hnl (hlevel ▸ hl) (by
      show Stops (k + 1) t.kind
      rw [ht]
      exact stops_op (Nat.lt_succ_of_le (Nat.le_of_eq hlevel.symm)))
  refine hleft.next (by omega) (by omega) fun left' id heq => ?_
  exact chainStep_next hk h (hs'.behind id) hlevel.symm ht (by omega) hbehind hnr (hlevel ▸ hr) hstops heq
termination_by ts.length
decreasing_by omega

theorem reads_chain {k : Nat} (hk : k < 10) (h : Reads (k + 1) n p) :
    Reads k n (chain (opsAt k) p) := by
  intro s e ts rest hs hn hspells hnormal hrank hstops
  have hbudget := hs.budget
  rw [List.length_append] at hbudget
  refine (arrives_chain hk h hs hn hspells hnormal hrank (hstops.mono (Nat.le_succ k))).gives
    (by omega) fun e' id => ?_
  have hnone : (opsAt k).lookup (rest.headD s.last).kind = none := by
    rw [Option.eq_none_iff_forall_ne_some]
    intro op hop
    obtain ⟨hlevel, htoken⟩ := (lookup_opsAt hk).mp hop
    exact hstops.op op (Nat.le_of_eq hlevel.symm) htoken
  rw [chainStep, run_peekKind]
  rw [show (s.past rest id).head.kind = (rest.headD s.last).kind from rfl, hnone]
  rfl

theorem reads_binaryLevels (h : Reads 10 n p) {k : Nat} (hk : k ≤ 10) :
    Reads k n (binaryLevels (levels.drop k) p) := by
  induction hk using Nat.decreasingInduction with
  | self => exact h
  | of_succ k hk ih =>
    rw [drop_levels hk]
    exact reads_chain hk ih

/-! ## Arguments -/

theorem itemStep_done {close : TokenKind} {items : List Expr} {s : ParseState}
    (h : s.head.kind = close) : (itemStep close p items).run s = .ok (.done items, s) := by
  rw [itemStep, run_check, if_pos (decide_eq_true h)]
  rfl

theorem itemStep_item {close : TokenKind} (items : List Expr) {s s' : ParseState} {x : Expr}
    (h : s.head.kind ≠ close) (hx : p.run s = .ok (x, s')) :
    (itemStep close p items).run s =
      if s'.head.kind = .comma then .ok (.next (x :: items), s'.withRest s'.rest.tail)
      else .ok (.done (x :: items), s') := by
  rw [itemStep, run_check, if_neg (fun e => h (of_decide_eq_true e)), run_bind_of hx, run_accept]
  split <;> rfl

/-- Up to a closing parenthesis the rounds give the arguments behind those found so far. -/
theorem iterate_itemStep (h : Reads 0 n p) {closing : Token} (hclose : closing.kind = .parenRight)
    {rest : List Token} : ∀ (args items : List Expr) (inside : List Token) (s : ParseState) (b : Nat),
      s.Ahead (inside ++ closing :: rest) → inside.length ≤ n → inside.length < b →
      Expr.SpellArgs args inside → Expr.AllNormal args →
      ∃ args' id, (iterate (itemStep .parenRight p) b items).run s =
        .ok (args'.reverse ++ items, s.past (closing :: rest) id) ∧
          Expr.unmarkedList args' = Expr.unmarkedList args
  | [], items, _, s, b + 1, hs, _, _, rfl, _ => by
    have hpast : s.past (closing :: rest) s.nextId = s := by
      rw [ParseState.past, show closing :: rest = s.rest from hs.rest.symm]
    refine ⟨[], s.nextId, ?_, rfl⟩
    rw [hpast, iterate_done (itemStep_done (by rw [hs.head_eq, hclose]))]
    rfl
  | e :: more, items, inside, s, b + 1, hs, hn, hb, ⟨first, hspells, hbehind⟩, ⟨hnormal, hnormal'⟩ => by
    obtain ⟨t, behind, hfirst, hstart, -⟩ := hspells.head hnormal
    have hne : ∀ later, s.Ahead (first ++ later) → s.head.kind ≠ .parenRight := by
      intro later hs heq
      rw [hfirst] at hs
      rw [← hs.head_eq, heq] at hstart
      cases hstart
    obtain ⟨rfl, rfl⟩ | ⟨comma, later, rfl, hcomma, hlater⟩ := hbehind
    · obtain ⟨e', id, hrun, he⟩ := h s e _ _ hs hn hspells hnormal (Nat.zero_le _)
        (stops_closing (by show closing.kind ∈ _; rw [hclose]; decide))
      refine ⟨[e'], id, ?_, by simp only [Expr.unmarkedList, he]⟩
      have hstep := itemStep_item items (hne _ hs) hrun
      rw [if_neg (by show closing.kind ≠ _; rw [hclose]; decide)] at hstep
      rw [iterate_done hstep]
      rfl
    · rw [List.append_assoc, List.cons_append] at hs
      rw [List.length_append, List.length_cons] at hn hb
      obtain ⟨e', id, hrun, he⟩ := h s e _ _ hs (by omega) hspells hnormal (Nat.zero_le _)
        (stops_closing (by show comma.kind ∈ _; rw [hcomma]; decide))
      have hstep := itemStep_item items (hne _ hs) hrun
      rw [if_pos (by show comma.kind = _; exact hcomma)] at hstep
      obtain ⟨more', id', hmore, heq⟩ := iterate_itemStep h hclose more (e' :: items) later _ b
        ((hs.behind id).tail id) (by omega) (by omega) hlater hnormal'
      refine ⟨e' :: more', id', ?_, by simp only [Expr.unmarkedList, he, heq]⟩
      rw [iterate_next hstep, List.reverse_cons, List.append_assoc]
      exact hmore

/-- A token that is expected and stands next is taken. -/
theorem run_expect_ahead {α : Type} {kind : TokenKind} {purpose : String} {f : Token → Parser α}
    {s : ParseState} {t : Token} {rest : List Token} (hs : s.Ahead (t :: rest)) (ht : t.kind = kind) :
    (expect kind purpose >>= f).run s = (f t).run (s.past rest s.nextId) := by
  rw [run_expect, hs.head_eq, if_pos ht, hs.withRest_tail]

theorem run_arguments (h : Reads 0 n p) {s : ParseState} {opening closing : Token}
    {inside rest : List Token} {args : List Expr}
    (hs : s.Ahead (opening :: (inside ++ closing :: rest))) (hopen : opening.kind = .parenLeft)
    (hclose : closing.kind = .parenRight) (hn : inside.length ≤ n) (hspells : Expr.SpellArgs args inside)
    (hnormal : Expr.AllNormal args) :
    ∃ args' id, (arguments p).run s = .ok (args', s.past rest id) ∧
      Expr.unmarkedList args' = Expr.unmarkedList args := by
  have hs' := hs.tail s.nextId
  have hb : inside.length < s.budget := by
    have := hs'.budget
    rw [List.length_append] at this
    exact Nat.lt_of_le_of_lt (Nat.le_add_right ..) this
  obtain ⟨args', id, hrun, heq⟩ := iterate_itemStep h hclose args [] inside _ s.budget hs' hn hb hspells
    hnormal
  have hlist : (commaList .parenRight p).run (s.past (inside ++ closing :: rest) s.nextId) =
      .ok (args', s.past (closing :: rest) id) := by
    rw [commaList_eq, run_map, run_loop]
    show Except.map _ ((iterate (itemStep .parenRight p) s.budget []).run _) = _
    rw [hrun, List.append_nil]
    show Except.ok (args'.reverse.reverse, _) = _
    rw [List.reverse_reverse]
    rfl
  have hclosing : (s.past (closing :: rest) id).Ahead (closing :: rest) := hs'.behind id
  refine ⟨args', id, ?_, heq⟩
  rw [arguments, run_expect_ahead hs hopen, run_bind_of hlist, run_expect_ahead hclosing hclose]
  rfl

/-! ## Unary expressions -/

theorem gives_literal {type : Parser TypeExpr} {s : ParseState} {t : Token} {rest : List Token}
    {mark : Mark} {value : Literal} (hs : s.Ahead (t :: rest)) (ht : t.literal? = some value) :
    Gives (primary p type) s (.literal mark value) rest := by
  have hform : ∀ cause, (literalForm t (some value) cause).run s =
      .ok (.literal ⟨s.nextId, t.line⟩ value, s.past rest (s.nextId + 1)) := by
    intro cause
    show (advance >>= _).run s = _
    rw [run_advance, hs.withRest_tail]
    rfl
  refine ⟨.literal ⟨s.nextId, t.line⟩ value, s.nextId + 1, ?_, rfl⟩
  rw [run_primary, hs.head_eq, ht]
  unfold Token.literal? at ht
  split at ht
  case h_1 hk => rw [hk]; exact hform _
  case h_2 hk => rw [hk]; exact hform _
  case h_3 hk => rw [hk]; exact hform _
  case h_4 hk => rw [hk]; exact hform _
  case h_5 => cases ht

/-- A name that starts no type is a call or a variable. -/
theorem run_named {type : Parser TypeExpr} {s : ParseState} {t : Token} {rest : List Token}
    (hs : s.Ahead (t :: rest)) (ht : t.kind = .identifier) :
    (primary p type).run s =
      if (rest.headD s.last).kind = .parenLeft then
        (do
          let args ← arguments p
          return .call (← freshMark t.line) t.lexeme args : Parser Expr).run (s.past rest s.nextId)
      else .ok (.var ⟨s.nextId, t.line⟩ t.lexeme, s.past rest (s.nextId + 1)) := by
  obtain ⟨hbuiltin, hcast⟩ := hs.plain.head_isPlain (by rw [hs.head_eq, ht])
  rw [run_primary, hs.head_eq, ht]
  rw [hs.head_eq] at hbuiltin hcast
  show (named p type).run s = _
  rw [named, run_peek, run_peekSecond, hs.head_eq, if_neg hcast, run_get, hbuiltin, hs.plain.context,
    hs.withRest_tail]
  simp only [Bool.or_false, Bool.false_and, Bool.false_eq_true, if_false, run_advance, hs.withRest_tail]
  show (if (rest.headD s.last).kind = .parenLeft then _ else _ : Parser Expr).run _ = _
  split <;> rfl

theorem gives_var {type : Parser TypeExpr} {s : ParseState} {t : Token} {rest : List Token}
    {mark : Mark} {name : String} (hs : s.Ahead (t :: rest)) (ht : t.IsName name)
    (hnext : (rest.headD s.last).kind ≠ .parenLeft) :
    Gives (primary p type) s (.var mark name) rest := by
  refine ⟨_, _, (run_named hs ht.1).trans (if_neg hnext), ?_⟩
  rw [ht.2]
  rfl

theorem gives_call (h : Reads 0 n p) {type : Parser TypeExpr} {s : ParseState} {t opening closing : Token}
    {inside rest : List Token} {mark : Mark} {name : String} {args : List Expr}
    (hs : s.Ahead (t :: opening :: (inside ++ closing :: rest))) (ht : t.IsName name)
    (hopen : opening.kind = .parenLeft) (hclose : closing.kind = .parenRight) (hn : inside.length ≤ n)
    (hspells : Expr.SpellArgs args inside) (hnormal : Expr.AllNormal args) :
    Gives (primary p type) s (.call mark name args) rest := by
  obtain ⟨args', id, hargs, heq⟩ := run_arguments h (hs.tail s.nextId) hopen hclose hn hspells hnormal
  refine ⟨.call ⟨id, t.line⟩ name args', id + 1, ?_, by rw [Expr.unmarked, Expr.unmarked, heq]⟩
  rw [run_named hs ht.1, List.headD_cons, if_pos hopen, run_bind_of hargs, ht.2]
  rfl

theorem gives_group (h : Reads 0 n p) {type : Parser TypeExpr} {s : ParseState} {opening closing : Token}
    {inside rest : List Token} {mark : Mark} {inner : Expr}
    (hs : s.Ahead (opening :: (inside ++ closing :: rest))) (hopen : opening.kind = .parenLeft)
    (hclose : closing.kind = .parenRight) (hn : inside.length ≤ n) (hspells : inner.Spells inside)
    (hnormal : inner.Normal) : Gives (primary p type) s (.group mark inner) rest := by
  have hs' := hs.tail s.nextId
  obtain ⟨inner', id, hrun, heq⟩ := h _ inner inside (closing :: rest) hs' hn hspells hnormal
    (Nat.zero_le _) (stops_closing (by show closing.kind ∈ _; rw [hclose]; decide))
  refine ⟨.group ⟨id, opening.line⟩ inner', id + 1, ?_, by rw [Expr.unmarked, Expr.unmarked, heq]⟩
  rw [run_primary, hs.head_eq, hopen, hs.withRest_tail]
  show (p >>= _).run _ = _
  rw [run_bind_of hrun]
  have hclosing : (s.past (closing :: rest) id).Ahead (closing :: rest) := hs'.behind id
  show (expect _ _ >>= _).run (s.past (closing :: rest) id) = _
  rw [run_expect_ahead hclosing hclose]
  rfl

/-- Up to the last index or member the repetition has taken what is indexed or asked. -/
theorem arrives_trailing (h : Reads 0 n p) (type : Parser TypeExpr) {s : ParseState} {e : Expr}
    {ts rest : List Token} (hs : s.Ahead (ts ++ rest)) (hn : ts.length ≤ n + 1) (hspells : e.Spells ts)
    (hnormal : e.Normal) (hrank : 11 ≤ e.rank) (hnext : (rest.headD s.last).kind ≠ .parenLeft) :
    Arrives (primary p type) (trailingStep p) s e ts rest := by
  have hbudget := hs.budget
  rw [List.length_append] at hbudget
  match e, hspells, hnormal, hrank with
  | .literal mark value, hspells, _, _ =>
    obtain ⟨t, rfl, ht⟩ := hspells
    exact (gives_literal hs ht).arrives
  | .var mark name, hspells, _, _ =>
    obtain ⟨t, rfl, ht⟩ := hspells
    exact (gives_var hs ht hnext).arrives
  | .call mark name args, hspells, hnormal, _ =>
    obtain ⟨t, opening, inside, closing, rfl, ht, hopen, hclose, hargs⟩ := hspells
    simp only [List.cons_append, List.append_assoc, List.nil_append] at hs
    simp only [List.length_cons, List.length_append] at hn
    exact (gives_call h hs ht hopen hclose (by omega) hargs hnormal).arrives
  | .group mark inner, hspells, hnormal, _ =>
    obtain ⟨opening, inside, closing, rfl, hopen, hclose, hinner⟩ := hspells
    simp only [List.cons_append, List.append_assoc, List.nil_append] at hs
    simp only [List.length_cons, List.length_append] at hn
    exact (gives_group h hs hopen hclose (by omega) hinner hnormal).arrives
  | .index mark base i, hspells, ⟨hrank', hnormal, hnormal'⟩, _ =>
    obtain ⟨before, opening, inside, closing, hts, hopen, hclose, hbase, hi⟩ := hspells
    have hlength : ts.length = before.length + inside.length + 2 := by
      rw [hts]
      simp only [List.length_append, List.length_cons, List.length_nil]
      omega
    have hs' : s.Ahead (before ++ opening :: (inside ++ closing :: rest)) := by
      simpa [hts] using hs
    have hleft := arrives_trailing h type hs' (by omega) hbase hnormal hrank' (by
      show opening.kind ≠ _
      rw [hopen]
      decide)
    refine hleft.next (by omega) (by omega) fun base' id heq => ?_
    have hat : (s.past (opening :: (inside ++ closing :: rest)) id).Ahead _ := hs'.behind id
    have hin : (s.past (inside ++ closing :: rest) id).Ahead _ := hat.tail id
    obtain ⟨i', id', hrun, heqi⟩ := h _ i inside (closing :: rest) hin (by omega) hi hnormal'
      (Nat.zero_le _) (stops_closing (by show closing.kind ∈ _; rw [hclose]; decide))
    have hclosing : (s.past (closing :: rest) id').Ahead (closing :: rest) := hin.behind id'
    refine ⟨.index ⟨id', base'.line⟩ base' i', id' + 1, ?_, by rw [Expr.unmarked, Expr.unmarked, heq, heqi]⟩
    rw [run_trailingStep, hat.head_eq, if_pos hopen, hat.withRest_tail]
    show (p >>= _).run (s.past (inside ++ closing :: rest) id) = _
    rw [run_bind_of hrun]
    show (expect _ _ >>= _).run (s.past (closing :: rest) id') = _
    rw [run_expect_ahead hclosing hclose]
    rfl
  | .member mark base name, hspells, ⟨hrank', hnormal⟩, _ =>
    obtain ⟨before, point, t, hts, hpoint, ht, hbase⟩ := hspells
    have hlength : ts.length = before.length + 2 := by
      rw [hts]
      simp only [List.length_append, List.length_cons, List.length_nil]
    have hs' : s.Ahead (before ++ point :: t :: rest) := by
      simpa [hts] using hs
    have hleft := arrives_trailing h type hs' (by omega) hbase hnormal hrank' (by
      show point.kind ≠ _
      rw [hpoint]
      decide)
    refine hleft.next (by omega) (by omega) fun base' id heq => ?_
    have hat : (s.past (point :: t :: rest) id).Ahead _ := hs'.behind id
    have hname : (s.past (t :: rest) id).Ahead (t :: rest) := hat.tail id
    refine ⟨.member ⟨id, base'.line⟩ base' name, id + 1, ?_, by rw [Expr.unmarked, Expr.unmarked, heq]⟩
    rw [run_trailingStep, hat.head_eq, if_neg (by rw [hpoint]; decide), if_pos hpoint, hat.withRest_tail]
    show (identifier >>= _).run (s.past (t :: rest) id) = _
    rw [run_identifier, hname.head_eq, if_pos ht.1, ht.2, hname.withRest_tail]
    rfl
  | .binary _ op _ _, _, _, hrank => exact absurd hrank (by rw [Expr.rank]; cases op <;> decide)
  | .unary .., _, _, hrank => exact absurd hrank (show ¬11 ≤ 10 by decide)
termination_by ts.length
decreasing_by all_goals omega

/-- What trails ends where neither an index nor a member follows. -/
theorem gives_trailing (h : Reads 0 n p) (type : Parser TypeExpr) {s : ParseState} {e : Expr}
    {ts rest : List Token} (hs : s.Ahead (ts ++ rest)) (hn : ts.length ≤ n + 1) (hspells : e.Spells ts)
    (hnormal : e.Normal) (hrank : 11 ≤ e.rank) (hstops : Stops 10 (rest.headD s.last).kind) :
    Gives (primary p type >>= trailing p) s e rest := by
  have hbudget := hs.budget
  rw [List.length_append] at hbudget
  refine (arrives_trailing h type hs hn hspells hnormal hrank hstops.paren).gives (by omega)
    fun e' id => ?_
  rw [run_trailingStep]
  show (if (rest.headD s.last).kind = .bracketLeft then _ else if (rest.headD s.last).kind = .period then _
    else _) = _
  rw [if_neg hstops.bracket, if_neg hstops.period]

theorem unaryOp?_of_startsPrimary {kind : TokenKind} (h : kind.startsPrimary = true) :
    unaryOp? kind = none := by
  cases kind <;> first | rfl | cases h

theorem reads_unaryStep {operand : Parser Expr} (hoperand : Reads 10 n operand) (h : Reads 0 n p)
    (type : Parser TypeExpr) : Reads 10 (n + 1) (unaryStep operand p type) := by
  intro s e ts rest hs hn hspells hnormal hrank hstops
  obtain hrank' | hrank' := Nat.lt_or_eq_of_le hrank
  · obtain ⟨t, behind, rfl, -, hprimary⟩ := hspells.head hnormal
    have hrun : (unaryStep operand p type).run s = (primary p type >>= trailing p).run s := by
      rw [unaryStep, run_peekKind, hs.head_eq, unaryOp?_of_startsPrimary (hprimary hrank')]
    obtain ⟨e', id, hgives⟩ := gives_trailing h type hs hn hspells hnormal hrank' hstops
    exact ⟨e', id, by rw [hrun]; exact hgives.1, hgives.2⟩
  · obtain ⟨mark, op, inner, rfl⟩ := e.eq_unary hrank'.symm
    obtain ⟨t, behind, rfl, ht, hinner⟩ := hspells
    obtain ⟨inner', id, hrun, heq⟩ := hoperand _ inner behind rest (hs.tail s.nextId)
      (Nat.le_of_succ_le_succ hn) hinner hnormal.2 hnormal.1 hstops
    refine ⟨.unary ⟨id, t.line⟩ op inner', id + 1, ?_, by rw [Expr.unmarked, Expr.unmarked, heq]⟩
    rw [unaryStep, run_peekKind, hs.head_eq, ht, unaryOp?_token]
    show (advance >>= _).run s = _
    rw [run_advance, hs.withRest_tail, hs.head_eq, run_bind_of hrun]
    rfl

/-! ## Expressions -/

/-- The depth bounds the number of tokens, by induction on it. -/
theorem reads_unaryWithin (depth : Nat) : Reads 10 depth (unaryWithin depth) := by
  induction depth with
  | zero =>
    intro s e ts rest hs hn hspells hnormal
    obtain ⟨t, behind, rfl, -⟩ := hspells.head hnormal
    exact absurd hn (Nat.not_succ_le_zero _)
  | succ depth ih => exact reads_unaryStep ih (reads_binaryLevels ih (Nat.zero_le 10)) _

/-- An expression that takes every token is given as a whole. -/
theorem gives_standaloneExpression {s : ParseState} {e : Expr} (hs : s.Ahead s.rest)
    (hspells : e.Spells s.rest) (hnormal : e.Normal) : Gives standaloneExpression s e [] := by
  have hs' : s.Ahead (s.rest ++ []) := by rwa [List.append_nil]
  have hstops : Stops 0 (([] : List Token).headD s.last).kind :=
    stops_closing (by show s.last.kind ∈ _; rw [hs.plain.last]; decide)
  have hb := hs.budget
  obtain ⟨e', id, hrun, heq⟩ := reads_binaryLevels (reads_unaryWithin (2 * s.budget)) (Nat.zero_le 10)
    s e s.rest [] hs' (by omega) hspells hnormal (Nat.zero_le _) hstops
  refine ⟨e', id, ?_, heq⟩
  have hexpression : expression.run s = .ok (e', s.past [] id) := by
    rw [expression, run_depthAhead]
    exact hrun
  rw [standaloneExpression, run_bind_of hexpression, atEnd, run_check]
  show (if decide (s.last.kind = .eof) = true then _ else _ : Parser Expr).run _ = _
  rw [if_pos (decide_eq_true hs.plain.last)]
  rfl

end Parser

/-! ## Exactly the grammar -/

namespace ParseState

/-- A fresh state over tokens that end with their only end mark. -/
theorem ofTokens_eq {body : List Token} {last : Token} (hlast : last.kind = .eof)
    (hbody : ∀ t ∈ body, t.kind ≠ .eof) :
    ParseState.ofTokens (body ++ [last]) = { rest := body, last := last } := by
  have hkinds : ∀ t ∈ body, decide (t.kind ≠ .eof) = true := fun t ht => decide_eq_true (hbody t ht)
  have hrest : (body ++ [last]).takeWhile (fun t => decide (t.kind ≠ .eof)) = body := by
    rw [List.takeWhile_append_of_pos hkinds, List.takeWhile_cons_of_neg (by simp [hlast]),
      List.append_nil]
  have hfind : (body ++ [last]).find? (fun t => decide (t.kind = .eof)) = some last := by
    rw [List.find?_append, List.find?_eq_none.mpr (fun t ht => by simpa using hbody t ht)]
    simp [hlast]
  simp only [ParseState.ofTokens, hrest, hfind]

/-- In front of the first token, where no name starts a type. -/
theorem ofTokens_ahead {body : List Token} {last : Token} (hlast : last.kind = .eof)
    (hbody : ∀ t ∈ body, t.kind ≠ .eof ∧ t.IsPlain) :
    (ParseState.ofTokens (body ++ [last])).Ahead body := by
  rw [ofTokens_eq hlast fun t ht => (hbody t ht).1]
  exact ⟨⟨hlast, hbody, fun _ => rfl⟩, rfl, Nat.lt_succ_self _⟩

end ParseState

namespace Expr

mutual

/-- Numbers and lines are not spelled. -/
theorem spells_unmarked : ∀ (e : Expr) (ts : List Token), e.unmarked.Spells ts ↔ e.Spells ts
  | .literal .., _ => Iff.rfl
  | .var .., _ => Iff.rfl
  | .binary _ op lhs rhs, ts => by
    simp only [unmarked, Spells, spells_unmarked lhs, spells_unmarked rhs]
  | .unary _ op operand, ts => by simp only [unmarked, Spells, spells_unmarked operand]
  | .call _ name args, ts => by simp only [unmarked, Spells, spellArgs_unmarked args]
  | .index _ base i, ts => by simp only [unmarked, Spells, spells_unmarked base, spells_unmarked i]
  | .member _ base name, ts => by simp only [unmarked, Spells, spells_unmarked base]
  | .group _ inner, ts => by simp only [unmarked, Spells, spells_unmarked inner]
  | .construct .., _ => by simp only [unmarked, Spells]
  | .bitcast .., _ => by simp only [unmarked, Spells]

theorem spellArgs_unmarked : ∀ (args : List Expr) (ts : List Token),
    SpellArgs (unmarkedList args) ts ↔ SpellArgs args ts
  | [], _ => Iff.rfl
  | e :: rest, ts => by
    have hnil : unmarkedList rest = [] ↔ rest = [] := by cases rest <;> simp [unmarkedList]
    simp only [unmarkedList, SpellArgs, spells_unmarked e, spellArgs_unmarked rest, hnil]

end

theorem rank_unmarked (e : Expr) : e.unmarked.rank = e.rank := by
  cases e <;> rfl

mutual

/-- Numbers and lines do not matter for precedence. -/
theorem normal_unmarked : ∀ e : Expr, e.unmarked.Normal ↔ e.Normal
  | .literal .. => Iff.rfl
  | .var .. => Iff.rfl
  | .binary _ op lhs rhs => by
    simp only [unmarked, Normal, rank_unmarked, normal_unmarked lhs, normal_unmarked rhs]
  | .unary _ op operand => by simp only [unmarked, Normal, rank_unmarked, normal_unmarked operand]
  | .call _ name args => by simp only [unmarked, Normal, allNormal_unmarked args]
  | .construct _ type args => by simp only [unmarked, Normal, allNormal_unmarked args]
  | .bitcast _ type value => by simp only [unmarked, Normal, normal_unmarked value]
  | .index _ base i => by
    simp only [unmarked, Normal, rank_unmarked, normal_unmarked base, normal_unmarked i]
  | .member _ base name => by simp only [unmarked, Normal, rank_unmarked, normal_unmarked base]
  | .group _ inner => by simp only [unmarked, Normal, normal_unmarked inner]

theorem allNormal_unmarked : ∀ args : List Expr, AllNormal (unmarkedList args) ↔ AllNormal args
  | [] => Iff.rfl
  | e :: rest => by simp only [unmarkedList, AllNormal, normal_unmarked e, allNormal_unmarked rest]

end

variable {body : List Token} {last : Token} {e : Expr}

/-- Tokens that spell an expression grouped by precedence are read as it. -/
theorem ofTokens_of_spells (hlast : last.kind = .eof) (hbody : ∀ t ∈ body, t.kind ≠ .eof ∧ t.IsPlain)
    (hnormal : e.Normal) (hspells : e.Spells body) :
    ∃ e', Expr.ofTokens (body ++ [last]) = .ok e' ∧ e'.unmarked = e.unmarked := by
  have hs := ParseState.ofTokens_ahead hlast hbody
  obtain ⟨e', id, hrun, heq⟩ := Parser.gives_standaloneExpression (e := e) (by rw [hs.rest]; exact hs)
    (by rw [hs.rest]; exact hspells) hnormal
  exact ⟨e', by rw [Expr.ofTokens, hrun]; rfl, heq⟩

/-- Where no name starts a type, an expression is read exactly when it is grouped by precedence and
the tokens spell it. -/
theorem ofTokens_iff (hlast : last.kind = .eof) (hbody : ∀ t ∈ body, t.kind ≠ .eof ∧ t.IsPlain) :
    (∃ e', Expr.ofTokens (body ++ [last]) = .ok e' ∧ e'.unmarked = e.unmarked) ↔
      e.Normal ∧ e.Spells body := by
  constructor
  · rintro ⟨e', hread, heq⟩
    have hs := ParseState.ofTokens_ahead hlast hbody
    have hrun : ∃ s', Parser.standaloneExpression.run (.ofTokens (body ++ [last])) = .ok (e', s') := by
      rw [Expr.ofTokens] at hread
      cases hr : Parser.standaloneExpression.run (.ofTokens (body ++ [last])) with
      | error _ =>
        rw [hr] at hread
        cases hread
      | ok r =>
        rw [hr] at hread
        cases hread
        exact ⟨r.2, rfl⟩
    obtain ⟨s', hrun⟩ := hrun
    obtain ⟨hspells, hnormal⟩ := Parser.parses_standaloneExpression hs.plain hrun
    rw [hs.rest] at hspells
    exact ⟨(normal_unmarked e).mp (heq ▸ (normal_unmarked e').mpr hnormal),
      (spells_unmarked e body).mp (heq ▸ (spells_unmarked e' body).mpr hspells)⟩
  · rintro ⟨hnormal, hspells⟩
    exact ofTokens_of_spells hlast hbody hnormal hspells

/-- In `a - b * -f(1,)` the product is the right operand of the difference. -/
theorem ofTokens_iff_difference :
    let body : List Token := [⟨.identifier, "a", 1⟩, ⟨.minus, "-", 1⟩, ⟨.identifier, "b", 1⟩, ⟨.star, "*", 1⟩,
      ⟨.minus, "-", 1⟩, ⟨.identifier, "f", 1⟩, ⟨.parenLeft, "(", 1⟩, ⟨.intLiteral, "1", 1⟩, ⟨.comma, ",", 1⟩,
      ⟨.parenRight, ")", 1⟩]
    let last : Token := ⟨.eof, "", 1⟩
    let m : Mark := default
    let e : Expr := .binary m .subtract (.var m "a")
      (.binary m .multiply (.var m "b") (.unary m .negate (.call m "f" [.literal m (.int 1 .none)])))
    (last.kind = .eof ∧ ∀ t ∈ body, t.kind ≠ .eof ∧ t.IsPlain) ∧
      ((∃ e', Expr.ofTokens (body ++ [last]) = .ok e' ∧ e'.unmarked = e.unmarked) ↔
        e.Normal ∧ e.Spells body) := by
  intro body last m e
  have hlast : last.kind = .eof := rfl
  have hbody : ∀ t ∈ body, t.kind ≠ .eof ∧ t.IsPlain := by
    simp only [Token.IsPlain]
    decide
  exact ⟨⟨hlast, hbody⟩, ofTokens_iff hlast hbody⟩

end Expr

end Wgsl
