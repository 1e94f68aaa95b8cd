import Wgsl.Print
import Wgsl.Proofs.Parse.Acceptance
import Wgsl.Proofs.Token.Scanning

/-! # Printed expressions read back

The text of an expression is scanned into tokens that spell the expression, so that it is read back as
the same tree up to numbers and lines.

* `Expr.Printable`: expressions whose pieces stay apart when they are printed.
* `Expr.scans_text`: the induction on the tree. What must follow the text depends on its end
  (`Expr.Follows`), what may stand in front of it on its beginning.
-/

namespace Wgsl
set_option autoImplicit false

/-! ## Expressions that can be printed -/

/-- A name of letters, digits and underscores that is neither reserved nor the name of a type or of
the bit cast. -/
structure Token.PlainName (name : String) : Prop where
  word : Token.IsWord name.toList
  kind : Token.wordKind name = .identifier
  builtin : TypeName.isBuiltin name = false
  cast : name ≠ "bitcast"

/-- The operand does not begin with a character that would be scanned as part of the operator, nor
with a digit that would take a minus. -/
def UnaryOp.Apart (op : UnaryOp) (operand : List Char) : Prop :=
  ∀ c ∈ operand.head?, (op = .negate → Numeral.isDigit c = false ∧ c ≠ '-') ∧ (op = .addressOf → c ≠ '&')

namespace Expr

/-- Whether the expression is an integer literal. -/
def isInt : Expr → Bool
  | .literal _ (.int ..) => true
  | _ => false

mutual

/-- All literals are booleans or integers of a magnitude below `2 ^ 63`, all names are plain, no
operand runs into its operator, and no member is asked of an integer literal. -/
def Printable : Expr → Prop
  | .literal _ (.bool _) => True
  | .literal _ (.int value suffix) => value.toInt.natAbs < 2 ^ 63 ∧ suffix ∈ [none, some 'i', some 'u']
  | .literal _ (.float ..) => False
  | .var _ name => Token.PlainName name
  | .binary _ _ lhs rhs => Printable lhs ∧ Printable rhs
  | .unary _ op operand => Printable operand ∧ op.Apart operand.text.toList
  | .call _ name args => Token.PlainName name ∧ AllPrintable args
  | .construct .. => False
  | .bitcast .. => False
  | .index _ base i => Printable base ∧ Printable i
  | .member _ base name => Printable base ∧ Token.PlainName name ∧ base.isInt = false
  | .group _ inner => Printable inner

def AllPrintable : List Expr → Prop
  | [] => True
  | e :: rest => Printable e ∧ AllPrintable rest

end

/-! ## Texts -/

section Texts

variable (mark : Mark) (op : BinaryOp) (op' : UnaryOp) (lhs rhs base i : Expr) (name : String)
  (args : List Expr)

theorem text_binary : (Expr.binary mark op lhs rhs).text.toList =
    lhs.text.toList ++ ' ' :: (op.symbol.toList ++ ' ' :: rhs.text.toList) := by
  rw [show (Expr.binary mark op lhs rhs).text = lhs.text ++ " " ++ op.symbol ++ " " ++ rhs.text from rfl]
  simp

theorem text_unary : (Expr.unary mark op' rhs).text.toList = op'.symbol.toList ++ rhs.text.toList := by
  rw [show (Expr.unary mark op' rhs).text = op'.symbol ++ rhs.text from rfl]
  simp

theorem text_call : (Expr.call mark name args).text.toList =
    name.toList ++ '(' :: ((", ".intercalate (renderList false args)).toList ++ [')']) := by
  rw [show (Expr.call mark name args).text =
    name ++ "(" ++ ", ".intercalate (renderList false args) ++ ")" from rfl]
  simp

theorem text_index : (Expr.index mark base i).text.toList =
    base.text.toList ++ '[' :: (i.text.toList ++ [']']) := by
  rw [show (Expr.index mark base i).text = base.text ++ "[" ++ i.text ++ "]" from rfl]
  simp

theorem text_member : (Expr.member mark base name).text.toList =
    base.text.toList ++ '.' :: name.toList := by
  rw [show (Expr.member mark base name).text = base.text ++ "." ++ name from rfl]
  simp

theorem text_group : (Expr.group mark base).text.toList = '(' :: (base.text.toList ++ [')']) := by
  rw [show (Expr.group mark base).text = "(" ++ base.text ++ ")" from rfl]
  simp

theorem text_args : (", ".intercalate (renderList false (lhs :: rhs :: args))).toList =
    lhs.text.toList ++ ',' :: ' ' :: (", ".intercalate (renderList false (rhs :: args))).toList := by
  rw [show renderList false (lhs :: rhs :: args) = lhs.text :: rhs.text :: renderList false args from rfl,
    show renderList false (rhs :: args) = rhs.text :: renderList false args from rfl]
  simp [String.intercalate_cons_cons]

end Texts

/-- The characters that a printed expression begins with. -/
def startsText (c : Char) : Bool :=
  Token.isLetter c || c == '_' || Numeral.isDigit c || ['-', '!', '~', '&', '*', '('].contains c

theorem startsText_of_startsWord {c : Char} (h : (Token.isLetter c || c == '_') = true) :
    startsText c = true := by
  rw [startsText, h]
  rfl

/-- A printed expression begins with a letter, an underscore, a digit, a unary operator or a
parenthesis. -/
theorem text_head : ∀ {e : Expr}, e.Printable → ∃ c r, e.text.toList = c :: r ∧ startsText c = true
  | .literal _ (.bool b), _ => by
    cases b
    · exact ⟨'f', _, show "false".toList = _ from rfl, rfl⟩
    · exact ⟨'t', _, show "true".toList = _ from rfl, rfl⟩
  | .literal _ (.int value suffix), _ => by
    rw [show (Expr.literal _ (.int value suffix)).text = (Literal.int value suffix).text from rfl,
      Literal.toList_text_int, Literal.sign]
    split
    · exact ⟨'-', _, rfl, rfl⟩
    · obtain ⟨d, ds, hd⟩ := List.exists_cons_of_ne_nil (Literal.digits_ne_nil value)
      have hdigit := Literal.isDigit_digits value d (by rw [hd]; exact List.mem_cons_self ..)
      exact ⟨d, _, by rw [hd]; rfl, by rw [startsText, hdigit, Bool.or_true]; rfl⟩
  | .var _ name, h => by
    obtain ⟨c, r, hc, hstart, -⟩ := h.word
    exact ⟨c, r, hc, startsText_of_startsWord hstart⟩
  | .binary mark op lhs rhs, h => by
    obtain ⟨c, r, hc, hstart⟩ := text_head h.1
    exact ⟨c, _, by rw [text_binary, hc]; rfl, hstart⟩
  | .unary mark op operand, h => by
    rw [text_unary]
    cases op
    case negate => exact ⟨'-', _, rfl, rfl⟩
    case not => exact ⟨'!', _, rfl, rfl⟩
    case complement => exact ⟨'~', _, rfl, rfl⟩
    case addressOf => exact ⟨'&', _, rfl, rfl⟩
    case deref => exact ⟨'*', _, rfl, rfl⟩
  | .call mark name args, h => by
    obtain ⟨c, r, hc, hstart, -⟩ := h.1.word
    exact ⟨c, _, by rw [text_call, hc]; rfl, startsText_of_startsWord hstart⟩
  | .index mark base i, h => by
    obtain ⟨c, r, hc, hstart⟩ := text_head h.1
    exact ⟨c, _, by rw [text_index, hc]; rfl, hstart⟩
  | .member mark base name, h => by
    obtain ⟨c, r, hc, hstart⟩ := text_head h.1
    exact ⟨c, _, by rw [text_member, hc]; rfl, hstart⟩
  | .group mark inner, _ => ⟨'(', _, text_group mark inner, rfl⟩

/-- An operator is not scanned together with an operand that is apart from it. -/
theorem fuses_eq_false {op : UnaryOp} {operand : Expr} (h : operand.Printable)
    (hapart : op.Apart operand.text.toList) :
    ∃ c r, operand.text.toList = c :: r ∧ op.fuses c = false := by
  obtain ⟨c, r, hc, hstart⟩ := text_head h
  obtain ⟨hnegate, haddress⟩ := hapart c (by rw [hc]; rfl)
  have hne : ∀ {d : Char}, startsText d = false → (c == d) = false := by
    intro d hd
    rw [beq_eq_false_iff_ne]
    rintro rfl
    rw [hd] at hstart
    cases hstart
  refine ⟨c, r, hc, ?_⟩
  cases op
  case negate =>
    obtain ⟨hdigit, hminus⟩ := hnegate rfl
    simp [UnaryOp.fuses, hdigit, hminus, beq_eq_false_iff_ne.mp (hne (d := '.') (by decide)),
      beq_eq_false_iff_ne.mp (hne (d := '>') (by decide)), beq_eq_false_iff_ne.mp (hne (d := '=') (by decide))]
  case not => exact hne (by decide)
  case complement => rfl
  case addressOf =>
    rw [UnaryOp.fuses, hne (d := '=') (by decide), beq_eq_false_iff_ne.mpr (haddress rfl)]
    rfl
  case deref => exact hne (by decide)

/-! ## Scanning a text -/

/-- What follows does not carry the text on. A point carries an integer on. -/
def Follows (e : Expr) (rest : List Char) : Prop :=
  ∀ c ∈ rest.head?, Token.isWordChar c = false ∧ (c = '.' → 11 ≤ e.rank ∧ e.isInt = false)

theorem follows_cons {e : Expr} {c : Char} {rest : List Char} (hword : Token.isWordChar c = false)
    (hpoint : c ≠ '.') : e.Follows (c :: rest) := by
  rintro d ⟨⟩
  exact ⟨hword, fun h => absurd h hpoint⟩

/-- Nothing that an expression of a lower rank cannot bear follows an operand at its end. -/
theorem Follows.operand {e operand : Expr} {rest : List Char} (h : e.Follows rest) (hrank : e.rank < 11) :
    operand.Follows rest := by
  intro c hc
  obtain ⟨hword, hpoint⟩ := h c hc
  refine ⟨hword, fun h' => ?_⟩
  have := (hpoint h').1
  omega

end Expr

namespace Token

theorem PlainName.takes {name : String} (h : PlainName name) {recent : List Token} {rest : List Char}
    (hrest : ∀ c ∈ rest.head?, isWordChar c = false) :
    Takes recent (name.toList ++ rest) [⟨.identifier, name, 1⟩] rest := by
  have hscans : Scans recent (name.toList ++ rest) _ rest := scans_word h.word hrest
  rw [String.ofList_toList, h.kind] at hscans
  refine ⟨hscans, fun t ht => ?_⟩
  obtain rfl := List.mem_singleton.mp ht
  exact ⟨(fun h => nomatch h), fun _ => ⟨h.builtin, h.cast⟩⟩

/-- A reserved word is one token. -/
theorem takes_keyword {name : String} {kind : TokenKind} (hword : IsWord name.toList)
    (hkind : wordKind name = kind) (hk : kind ≠ .eof ∧ kind ≠ .identifier) {recent : List Token}
    {rest : List Char} (hrest : ∀ c ∈ rest.head?, isWordChar c = false) :
    Takes recent (name.toList ++ rest) [⟨kind, name, 1⟩] rest := by
  have hscans : Scans recent (name.toList ++ rest) _ rest := scans_word hword hrest
  rw [String.ofList_toList, hkind] at hscans
  exact takes_one hscans hk

/-- A literal that is printed is one token with its value. -/
theorem takes_literal {value : Literal} {mark : Mark} (h : (Expr.literal mark value).Printable)
    {recent : List Token} {rest : List Char}
    (hrecent : (recent.head?.map (·.kind.endsOperand)).getD false = false)
    (hrest : (Expr.literal mark value).Follows rest) :
    ∃ t, Takes recent (value.text.toList ++ rest) [t] rest ∧ t.literal? = some value := by
  cases value with
  | bool b =>
    have hrest' : ∀ c ∈ rest.head?, isWordChar c = false := fun c hc => (hrest c hc).1
    cases b
    · have hword : IsWord "false".toList := ⟨'f', ['a', 'l', 's', 'e'], rfl, rfl, List.all_eq_true.mp rfl⟩
      exact ⟨⟨.kwFalse, "false", 1⟩, takes_keyword hword (by decide) (by decide) hrest', rfl⟩
    · have hword : IsWord "true".toList := ⟨'t', ['r', 'u', 'e'], rfl, rfl, List.all_eq_true.mp rfl⟩
      exact ⟨⟨.kwTrue, "true", 1⟩, takes_keyword hword (by decide) (by decide) hrest', rfl⟩
  | int value suffix =>
    obtain ⟨hv, hs⟩ := h
    have hends : Ends rest := fun c hc => ⟨(hrest c hc).1, fun h => by
      cases ((hrest c hc).2 h).2⟩
    have hletters : suffix.toList ∈ [[], ['i'], ['u']] := by
      simp only [List.mem_cons, List.not_mem_nil, or_false] at hs
      obtain rfl | rfl | rfl := hs <;> decide
    have hne := Literal.digits_ne_nil value
    have hdigits := Literal.isDigit_digits value
    have hscans : Scans recent ((Literal.int value suffix).text.toList ++ rest)
        [⟨.intLiteral, String.ofList (Literal.int value suffix).text.toList, 1⟩] rest := by
      rw [Literal.toList_text_int, Literal.sign]
      split
      · show Scans recent ('-' :: (Literal.digits value ++ suffix.toList) ++ rest)
          [⟨.intLiteral, String.ofList ('-' :: (Literal.digits value ++ suffix.toList)), 1⟩] rest
        exact scans_negative hne hdigits hletters hends hrecent
      · show Scans recent (Literal.digits value ++ suffix.toList ++ rest)
          [⟨.intLiteral, String.ofList (Literal.digits value ++ suffix.toList), 1⟩] rest
        exact scans_digits hne hdigits hletters hends
    rw [String.ofList_toList] at hscans
    refine ⟨_, takes_one hscans ⟨(fun h => by cases h), (fun h => by cases h)⟩, ?_⟩
    rw [literal?, Numeral.readInt?_text hv hs]
    rfl
  | float => exact h.elim

end Token

namespace Expr

open Token

/-- What a text is scanned into: tokens that spell the expression. -/
def Scanned (e : Expr) (recent : List Token) (rest : List Char) : Prop :=
  ∃ ts, Takes recent (e.text.toList ++ rest) ts rest ∧ e.Spells ts

/-- Tokens behind which a sign belongs to a number, none of them a name that starts a type. -/
structure Before (recent : List Token) : Prop where
  plain : ∀ t ∈ recent, t.IsPlain
  sign : (recent.head?.map (·.kind.endsOperand)).getD false = false

/-- An expression may stand behind a token that ends no operand. -/
theorem before_cons {t : Token} {recent : List Token} (h : ∀ t ∈ recent, t.IsPlain)
    (hk : t.kind ≠ .identifier) (ht : t.kind.endsOperand = false) : Before (t :: recent) where
  plain u hu := (List.mem_cons.mp hu).elim (fun h => h ▸ fun h' => absurd h' hk) (h u)
  sign := ht

theorem takes_punctuation {c : Char} {kind : TokenKind} {recent : List Token} {rest : List Char}
    (h : (c, kind) ∈ [('(', TokenKind.parenLeft), (')', .parenRight), ('[', .bracketLeft),
      (']', .bracketRight), (',', .comma)]) :
    Takes recent (c :: rest) [⟨kind, String.ofList [c], 1⟩] rest := by
  refine takes_one (scans_punctuation h) ?_
  simp only [List.mem_cons, Prod.mk.injEq, List.not_mem_nil, or_false] at h
  obtain ⟨-, rfl⟩ | ⟨-, rfl⟩ | ⟨-, rfl⟩ | ⟨-, rfl⟩ | ⟨-, rfl⟩ := h <;>
    exact ⟨(fun h => nomatch h), (fun h => nomatch h)⟩

section Forms

variable {recent : List Token} {rest : List Char} {mark : Mark}

theorem scanned_binary {op : BinaryOp} {lhs rhs : Expr} (hrecent : Before recent)
    (hl : lhs.Scanned recent (' ' :: (op.symbol.toList ++ ' ' :: (rhs.text.toList ++ rest))))
    (hr : ∀ recent, Before recent → rhs.Scanned recent rest) :
    (Expr.binary mark op lhs rhs).Scanned recent rest := by
  obtain ⟨before, hbefore, hspells⟩ := hl
  have hplain := hbefore.recent_plain hrecent.plain
  have hop : Takes (before.reverse ++ recent) (op.symbol.toList ++ ' ' :: (rhs.text.toList ++ rest))
      [⟨op.token, op.symbol, 1⟩] (' ' :: (rhs.text.toList ++ rest)) :=
    takes_one (scans_binaryOp hplain op) (by cases op <;> exact ⟨(fun h => nomatch h), (fun h => nomatch h)⟩)
  obtain ⟨behind, hbehind, hspells'⟩ := hr (⟨op.token, op.symbol, 1⟩ :: (before.reverse ++ recent))
    (before_cons hplain (by cases op <;> exact fun h => nomatch h) (by cases op <;> rfl))
  refine ⟨before ++ ([⟨op.token, op.symbol, 1⟩] ++ behind), ?_,
    ⟨before, ⟨op.token, op.symbol, 1⟩, behind, rfl, rfl, hspells, hspells'⟩⟩
  simp only [text_binary, List.append_assoc, List.cons_append]
  exact hbefore.append (hop.append hbehind.space).space

theorem scanned_unary {op : UnaryOp} {operand : Expr} (hrecent : Before recent)
    (hprintable : operand.Printable) (hapart : op.Apart operand.text.toList)
    (h : ∀ recent, Before recent → operand.Scanned recent rest) :
    (Expr.unary mark op operand).Scanned recent rest := by
  obtain ⟨c, r, hc, hfuses⟩ := fuses_eq_false hprintable hapart
  have hop : Takes recent (op.symbol.toList ++ (operand.text.toList ++ rest)) [⟨op.token, op.symbol, 1⟩]
      (operand.text.toList ++ rest) := by
    rw [hc]
    exact takes_one (scans_unaryOp hfuses)
      (by cases op <;> exact ⟨(fun h => nomatch h), (fun h => nomatch h)⟩)
  obtain ⟨behind, hbehind, hspells⟩ := h (⟨op.token, op.symbol, 1⟩ :: recent)
    (before_cons hrecent.plain (by cases op <;> exact fun h => nomatch h) (by cases op <;> rfl))
  refine ⟨[⟨op.token, op.symbol, 1⟩] ++ behind, ?_, ⟨⟨op.token, op.symbol, 1⟩, behind, rfl, rfl, hspells⟩⟩
  rw [text_unary, List.append_assoc]
  exact hop.append hbehind

theorem scanned_index {base i : Expr} (hrecent : Before recent)
    (hbase : base.Scanned recent ('[' :: (i.text.toList ++ ']' :: rest)))
    (hi : ∀ recent, Before recent → i.Scanned recent (']' :: rest)) :
    (Expr.index mark base i).Scanned recent rest := by
  obtain ⟨before, hbefore, hspells⟩ := hbase
  obtain ⟨inside, hinside, hspells'⟩ := hi (⟨.bracketLeft, "[", 1⟩ :: (before.reverse ++ recent))
    (before_cons (hbefore.recent_plain hrecent.plain) (fun h => nomatch h) rfl)
  refine ⟨before ++ ([⟨.bracketLeft, "[", 1⟩] ++ (inside ++ [⟨.bracketRight, "]", 1⟩])), ?_,
    ⟨before, ⟨.bracketLeft, "[", 1⟩, inside, ⟨.bracketRight, "]", 1⟩, rfl, rfl, rfl, hspells, hspells'⟩⟩
  simp only [text_index, List.append_assoc, List.cons_append, List.nil_append]
  exact hbefore.append ((takes_punctuation (by decide)).append
    (hinside.append (takes_punctuation (by decide))))

theorem scanned_member {base : Expr} {name : String} (hname : PlainName name)
    (hrest : ∀ c ∈ rest.head?, isWordChar c = false)
    (hbase : base.Scanned recent ('.' :: (name.toList ++ rest))) :
    (Expr.member mark base name).Scanned recent rest := by
  obtain ⟨before, hbefore, hspells⟩ := hbase
  have hpoint : Takes (before.reverse ++ recent) ('.' :: (name.toList ++ rest)) [⟨.period, ".", 1⟩]
      (name.toList ++ rest) := by
    obtain ⟨c, r, hc, hstart, -⟩ := hname.word
    rw [hc]
    exact takes_one (scans_point (isDigit_of_startsWord hstart)) ⟨(fun h => nomatch h), (fun h => nomatch h)⟩
  refine ⟨before ++ ([⟨.period, ".", 1⟩] ++ [⟨.identifier, name, 1⟩]), ?_,
    ⟨before, ⟨.period, ".", 1⟩, ⟨.identifier, name, 1⟩, rfl, rfl, ⟨rfl, rfl⟩, hspells⟩⟩
  rw [text_member, List.append_assoc, List.cons_append]
  exact hbefore.append (hpoint.append (hname.takes hrest))

theorem scanned_group {inner : Expr} (hrecent : Before recent)
    (h : ∀ recent, Before recent → inner.Scanned recent (')' :: rest)) :
    (Expr.group mark inner).Scanned recent rest := by
  obtain ⟨inside, hinside, hspells⟩ := h (⟨.parenLeft, "(", 1⟩ :: recent)
    (before_cons hrecent.plain (fun h => nomatch h) rfl)
  refine ⟨[⟨.parenLeft, "(", 1⟩] ++ (inside ++ [⟨.parenRight, ")", 1⟩]), ?_,
    ⟨⟨.parenLeft, "(", 1⟩, inside, ⟨.parenRight, ")", 1⟩, rfl, rfl, rfl, hspells⟩⟩
  rw [text_group, List.cons_append, List.append_assoc]
  exact (takes_punctuation (by decide)).append (hinside.append (takes_punctuation (by decide)))

/-- The arguments up to the closing parenthesis. -/
def ArgsScanned (args : List Expr) (recent : List Token) (rest : List Char) : Prop :=
  ∃ ts, Takes recent ((", ".intercalate (renderList false args)).toList ++ ')' :: rest) ts (')' :: rest) ∧
    SpellArgs args ts

theorem scanned_call {name : String} {args : List Expr} (hrecent : Before recent) (hname : PlainName name)
    (h : ∀ recent, Before recent → ArgsScanned args recent rest) :
    (Expr.call mark name args).Scanned recent rest := by
  have hnaming : Takes recent (name.toList ++ '(' :: ((", ".intercalate (renderList false args)).toList ++
      ')' :: rest)) [⟨.identifier, name, 1⟩] ('(' :: ((", ".intercalate (renderList false args)).toList ++
      ')' :: rest)) := hname.takes (by rintro c ⟨⟩; rfl)
  obtain ⟨inside, hinside, hspells⟩ := h (⟨.parenLeft, "(", 1⟩ :: ⟨.identifier, name, 1⟩ :: recent)
    (before_cons (hnaming.recent_plain hrecent.plain) (fun h => nomatch h) rfl)
  refine ⟨[⟨.identifier, name, 1⟩] ++ ([⟨.parenLeft, "(", 1⟩] ++ (inside ++ [⟨.parenRight, ")", 1⟩])), ?_,
    ⟨⟨.identifier, name, 1⟩, ⟨.parenLeft, "(", 1⟩, inside, ⟨.parenRight, ")", 1⟩, rfl, ⟨rfl, rfl⟩, rfl, rfl,
      hspells⟩⟩
  simp only [text_call, List.append_assoc, List.cons_append, List.nil_append]
  exact hnaming.append ((takes_punctuation (by decide)).append
    (hinside.append (takes_punctuation (by decide))))

end Forms

mutual

/-- The text of an expression is scanned into tokens that spell it, by induction on the expression. -/
theorem scans_text : ∀ {e : Expr}, e.Normal → e.Printable → ∀ {recent : List Token} {rest : List Char},
    Before recent → e.Follows rest → e.Scanned recent rest
  | .literal _ value, _, hp, _, _, hrecent, hrest =>
    have ⟨t, htakes, ht⟩ := takes_literal hp hrecent.sign hrest
    ⟨[t], htakes, t, rfl, ht⟩
  | .var _ name, _, hp, _, _, _, hrest =>
    ⟨[⟨.identifier, name, 1⟩], PlainName.takes hp fun c hc => (hrest c hc).1, _, rfl, rfl, rfl⟩
  | .binary _ op lhs rhs, ⟨_, _, hnl, hnr⟩, ⟨hpl, hpr⟩, _, _, hrecent, hrest =>
    have hrank : op.level < 11 := by cases op <;> decide
    scanned_binary hrecent (scans_text hnl hpl hrecent (follows_cons rfl (by decide)))
      fun _ h => scans_text hnr hpr h (hrest.operand hrank)
  | .unary _ op operand, ⟨_, hn⟩, ⟨hp, hapart⟩, _, _, hrecent, hrest =>
    scanned_unary hrecent hp hapart fun _ h => scans_text hn hp h
      (hrest.operand (show 10 < 11 by decide))
  | .call _ name args, hn, ⟨hname, hp⟩, _, _, hrecent, _ =>
    scanned_call hrecent hname fun _ h => scans_args hn hp h
  | .index _ base i, ⟨_, hnb, hni⟩, ⟨hpb, hpi⟩, _, _, hrecent, _ =>
    scanned_index hrecent (scans_text hnb hpb hrecent (follows_cons rfl (by decide)))
      fun _ h => scans_text hni hpi h (follows_cons rfl (by decide))
  | .member _ base name, ⟨hrank, hn⟩, ⟨hp, hname, hint⟩, _, _, hrecent, hrest =>
    scanned_member hname (fun c hc => (hrest c hc).1) (scans_text hn hp hrecent fun c hc => by
      obtain rfl : '.' = c := by simpa using hc
      exact ⟨rfl, fun _ => ⟨hrank, hint⟩⟩)
  | .group _ inner, hn, hp, _, _, hrecent, _ =>
    have hn : inner.Normal := hn
    scanned_group hrecent fun _ h => scans_text hn hp h (follows_cons rfl (by decide))

theorem scans_args : ∀ {args : List Expr}, AllNormal args → AllPrintable args →
    ∀ {recent : List Token} {rest : List Char}, Before recent → ArgsScanned args recent rest
  | [], _, _, _, _, _ => ⟨[], ⟨.done, fun _ h => nomatch h⟩, rfl⟩
  | [e], ⟨hn, _⟩, ⟨hp, _⟩, _, _, hrecent => by
    obtain ⟨ts, htakes, hspells⟩ := scans_text hn hp hrecent
      (follows_cons rfl (show ')' ≠ '.' by decide))
    refine ⟨ts, ?_, ts, hspells, .inl ⟨rfl, rfl⟩⟩
    rw [renderList, renderList, String.intercalate_singleton]
    exact htakes
  | e :: f :: args, ⟨hn, hn'⟩, ⟨hp, hp'⟩, recent, rest, hrecent => by
    obtain ⟨first, hfirst, hspells⟩ := scans_text hn hp hrecent
      (follows_cons rfl (show ',' ≠ '.' by decide))
    obtain ⟨more, hmore, hspells'⟩ := scans_args hn' hp'
      (before_cons (t := ⟨.comma, ",", 1⟩) (hfirst.recent_plain hrecent.plain) (fun h => nomatch h) rfl)
    refine ⟨first ++ ([⟨.comma, ",", 1⟩] ++ more), ?_, first, hspells, .inr ⟨⟨.comma, ",", 1⟩, more, rfl, rfl,
      hspells'⟩⟩
    rw [text_args, List.append_assoc, List.cons_append, List.cons_append]
    exact hfirst.append ((takes_punctuation (by decide)).append hmore.space)

end

/-- The text of a printable expression that is grouped by precedence is read as the same tree. -/
theorem ofTokens_text {e : Expr} (hnormal : e.Normal) (hprintable : e.Printable) :
    ∃ tokens e', Token.tokenize e.text = .ok tokens ∧ Expr.ofTokens tokens = .ok e' ∧
      e'.unmarked = e.unmarked := by
  have hbefore : Before [] := ⟨(fun _ h => nomatch h), rfl⟩
  have hfollows : e.Follows [] := fun _ h => nomatch h
  obtain ⟨body, htakes, hspells⟩ := scans_text hnormal hprintable hbefore hfollows
  rw [List.append_nil] at htakes
  have hlast : (⟨.eof, "", 1⟩ : Token).kind = .eof := rfl
  obtain ⟨e', hread, heq⟩ := ofTokens_of_spells hlast htakes.plain hnormal hspells
  exact ⟨_, e', Token.tokenize_of_scans htakes.scans, hread, heq⟩

/-- The text of `a - -3i < -(x.y[2])` keeps both minus signs of the literal and of the operator. -/
theorem ofTokens_text_minus :
    let m : Mark := default
    let e : Expr := .binary m .less
      (.binary m .subtract (.var m "a") (.literal m (.int (-3) (some 'i'))))
      (.unary m .negate (.group m (.index m (.member m (.var m "x") "y") (.literal m (.int 2 none)))))
    (e.Normal ∧ e.Printable) ∧ ∃ tokens e', Token.tokenize e.text = .ok tokens ∧
      Expr.ofTokens tokens = .ok e' ∧ e'.unmarked = e.unmarked := by
  intro m e
  have hname : ∀ c ∈ ['a', 'x', 'y'], PlainName (String.ofList [c]) := by
    intro c hc
    simp only [List.mem_cons, List.not_mem_nil, or_false] at hc
    obtain rfl | rfl | rfl := hc <;>
      exact ⟨⟨_, [], rfl, rfl, fun _ h => absurd h List.not_mem_nil⟩, by decide, by decide, by decide⟩
  have hnormal : e.Normal := by
    simp [e, Normal, rank, BinaryOp.level]
  have hprintable : e.Printable := by
    have hapart : UnaryOp.negate.Apart (Expr.group m
        (.index m (.member m (.var m "x") "y") (.literal m (.int 2 none)))).text.toList := by
      rw [text_group]
      rintro c ⟨⟩
      exact ⟨fun _ => ⟨rfl, by decide⟩, fun h => by cases h⟩
    exact ⟨⟨hname 'a' (by decide), by decide, by decide⟩,
      ⟨⟨hname 'x' (by decide), hname 'y' (by decide), rfl⟩, by decide, by decide⟩, hapart⟩
  exact ⟨⟨hnormal, hprintable⟩, ofTokens_text hnormal hprintable⟩

end Expr

end Wgsl
