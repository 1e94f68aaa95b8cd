import Wgsl.Proofs.Parse.Grammar
import Wgsl.Proofs.Token.Numeral

/-! # Scanning piece by piece

A text that stands on one line is scanned by taking pieces off its beginning. `Scans` is the judgment
that some tokens are taken and some text remains; such judgments compose, and each kind of piece that
is printed has a rule. The other way round, what is scanned as an identifier is a word
(`isWord_of_tokenize`).
-/

namespace Wgsl
set_option autoImplicit false

/-- The characters that the operator is scanned together with. -/
def UnaryOp.fuses (op : UnaryOp) (c : Char) : Bool :=
  match op with
  | .negate => Numeral.isDigit c || ['.', '-', '>', '='].contains c
  | .not => c == '='
  | .complement => false
  | .addressOf => c == '&' || c == '='
  | .deref => c == '='

namespace Token

/-! ## The judgment -/

/-- Behind the recent tokens (latest first), the tokens are taken from a text and another remains. All
stands on the first line. -/
inductive Scans : List Token → List Char → List Token → List Char → Prop where
  | done {recent : List Token} {cs : List Char} : Scans recent cs [] cs
  | gap {recent ts : List Token} {c : Char} {r rest cs' : List Char}
      (hpiece : piece recent (c :: r) = .ok (.gap rest 0)) (hlength : rest.length ≤ r.length)
      (h : Scans recent rest ts cs') : Scans recent (c :: r) ts cs'
  | token {recent ts : List Token} {c : Char} {r rest cs' lexeme : List Char} {kind : TokenKind}
      (hpiece : piece recent (c :: r) = .ok (.token kind lexeme rest)) (hlength : rest.length ≤ r.length)
      (h : Scans (⟨kind, String.ofList lexeme, 1⟩ :: recent) rest ts cs') :
      Scans recent (c :: r) (⟨kind, String.ofList lexeme, 1⟩ :: ts) cs'

variable {recent ts us : List Token} {cs mid rest : List Char}

theorem Scans.append (h : Scans recent cs ts mid) (h' : Scans (ts.reverse ++ recent) mid us rest) :
    Scans recent cs (ts ++ us) rest := by
  induction h with
  | done => exact h'
  | gap hpiece hlength _ ih => exact .gap hpiece hlength (ih h')
  | token hpiece hlength _ ih =>
    refine .token hpiece hlength (ih ?_)
    rwa [List.reverse_cons, List.append_assoc] at h'

theorem Scans.scan_eq (h : Scans recent cs ts []) {budget : Nat} (hb : cs.length ≤ budget) :
    scan budget 1 recent cs = .ok (recent.reverse ++ ts ++ [⟨.eof, "", 1⟩]) := by
  generalize hrest : ([] : List Char) = rest at h
  induction h generalizing budget with
  | done =>
    subst hrest
    rw [scan, List.append_nil]
  | gap hpiece hlength _ ih =>
    obtain ⟨budget, rfl⟩ : ∃ b, budget = b + 1 := ⟨budget - 1, by rw [List.length_cons] at hb; omega⟩
    rw [scan, hpiece]
    exact ih (Nat.le_trans hlength (Nat.le_of_succ_le_succ hb)) hrest
  | token hpiece hlength _ ih =>
    obtain ⟨budget, rfl⟩ : ∃ b, budget = b + 1 := ⟨budget - 1, by rw [List.length_cons] at hb; omega⟩
    rw [scan, hpiece]
    refine (ih (Nat.le_trans hlength (Nat.le_of_succ_le_succ hb)) hrest).trans ?_
    rw [List.reverse_cons, List.append_assoc _ [_] _]
    rfl

/-- A text of which nothing remains is cut into its tokens. -/
theorem tokenize_of_scans {source : String} (h : Scans [] source.toList ts []) :
    tokenize source = .ok (ts ++ [⟨.eof, "", 1⟩]) :=
  h.scan_eq (Nat.le_refl _)

/-! ## Pieces -/

/-- A space is dropped. -/
theorem Scans.space (h : Scans recent cs ts rest) : Scans recent (' ' :: cs) ts rest :=
  .gap rfl (Nat.le_refl _) h

/-- A token that is read from the characters in front of what remains. -/
theorem Scans.of_piece {c : Char} {r : List Char} {kind : TokenKind}
    (hpiece : piece recent (c :: (r ++ rest)) = .ok (.token kind (c :: r) rest)) :
    Scans recent (c :: (r ++ rest)) [⟨kind, String.ofList (c :: r), 1⟩] rest :=
  .token hpiece (by rw [List.length_append]; exact Nat.le_add_left ..) .done

/-- What takes the place of a token in the reading order. -/
theorem piece_eq {c : Char} {r : List Char} (hgap : gap? (c :: r) = .ok none) {p : Piece}
    (h : (number? [] (c :: r) <|> negative? recent (c :: r) <|> word? (c :: r) <|>
      templateEnd? recent (c :: r) <|> operator? (c :: r)) = some p) :
    piece recent (c :: r) = .ok p := by
  rw [piece, hgap]
  simp only [h]

/-! ### Words -/

/-- A letter or an underscore, then letters, digits and underscores. -/
def IsWord (cs : List Char) : Prop :=
  ∃ c r, cs = c :: r ∧ (isLetter c || c == '_') = true ∧ ∀ d ∈ r, isWordChar d = true

/-- Where the characters that start a word stand in the alphabet. -/
theorem toNat_of_startsWord {c : Char} (h : (isLetter c || c == '_') = true) :
    65 ≤ c.toNat ∧ c.toNat ≤ 122 := by
  simp only [Bool.or_eq_true, beq_iff_eq, isLetter, Bool.and_eq_true, decide_eq_true_eq, Char.le_def,
    UInt32.le_iff_toNat_le] at h
  obtain (⟨hlow, hhigh⟩ | ⟨hlow, hhigh⟩) | rfl := h
  · exact ⟨Nat.le_trans (by decide) hlow, hhigh⟩
  · exact ⟨hlow, Nat.le_trans hhigh (by decide)⟩
  · decide

theorem toNat_of_isDigit {c : Char} (h : Numeral.isDigit c = true) : 48 ≤ c.toNat ∧ c.toNat ≤ 57 := by
  simp only [Numeral.isDigit, Bool.and_eq_true, decide_eq_true_eq, Char.le_def,
    UInt32.le_iff_toNat_le] at h
  exact h

theorem isDigit_of_startsWord {c : Char} (h : (isLetter c || c == '_') = true) :
    Numeral.isDigit c = false := by
  by_contra hd
  have hword := toNat_of_startsWord h
  have hdigit := toNat_of_isDigit (Bool.not_eq_false _ ▸ hd)
  omega

/-- No blank has a code between those of the space and the next-line control. -/
theorem isBlank_of_range {c : Char} (hlow : 33 ≤ c.toNat) (hhigh : c.toNat ≤ 126) :
    Text.isBlank c = false := by
  simp only [Text.isBlank, Bool.or_eq_false_iff, Bool.and_eq_false_iff, beq_eq_false_iff_ne,
    decide_eq_false_iff_not]
  omega

/-- No gap stands where a visible character other than a slash stands. -/
theorem gap?_eq_none {c : Char} {r : List Char} (hlow : 33 ≤ c.toNat) (hhigh : c.toNat ≤ 126)
    (hslash : c ≠ '/') : gap? (c :: r) = .ok none := by
  unfold gap?
  split
  · rename_i h
    exact absurd (List.cons.inj h).1 hslash
  · rename_i h
    exact absurd (List.cons.inj h).1 hslash
  · rename_i h
    rw [← (List.cons.inj h).1, isBlank_of_range hlow hhigh]
    rfl
  · rename_i h
    cases h

theorem number?_eq_none {lead cs : List Char} (h : Numeral.starts cs = false) :
    number? lead cs = none := by
  rw [number?, h]
  rfl

theorem starts_eq_false {c : Char} {r : List Char} (hdigit : Numeral.isDigit c = false) (hpoint : c ≠ '.') :
    Numeral.starts (c :: r) = false := by
  unfold Numeral.starts
  split
  · rename_i h
    exact absurd (List.cons.inj h).1 hpoint
  · rename_i h
    rw [← (List.cons.inj h).1, hdigit]
  · rfl

theorem negative?_eq_none {c : Char} {r : List Char} (h : c ≠ '-') :
    negative? recent (c :: r) = none := by
  unfold negative?
  split
  · rename_i h'
    exact absurd (List.cons.inj h').1 h
  · rfl

/-- A minus without a number behind it stands for itself. -/
theorem negative?_minus (h : Numeral.starts cs = false) : negative? recent ('-' :: cs) = none := by
  rw [negative?, number?_eq_none h, ite_self]

/-- A word that nothing carries on is one token. -/
theorem scans_word (h : IsWord cs) (hrest : ∀ c ∈ rest.head?, isWordChar c = false) :
    Scans recent (cs ++ rest) [⟨wordKind (String.ofList cs), String.ofList cs, 1⟩] rest := by
  obtain ⟨c, r, rfl, hc, hr⟩ := h
  obtain ⟨hlow, hhigh⟩ := toNat_of_startsWord hc
  have hrun := Numeral.many_append hr hrest
  have hsplit : (r ++ rest).takeWhile isWordChar = r ∧ (r ++ rest).dropWhile isWordChar = rest := by
    simpa [Numeral.many] using hrun
  have hdigit := isDigit_of_startsWord hc
  have hne : ∀ d : Char, d.toNat < 65 → c ≠ d := by
    rintro d hd rfl
    omega
  refine .of_piece (piece_eq (gap?_eq_none (by omega) (by omega) (hne _ (by decide))) ?_)
  rw [number?_eq_none (starts_eq_false hdigit (hne _ (by decide))),
    negative?_eq_none (hne _ (by decide))]
  show (word? (c :: (r ++ rest)) <|> _) = _
  rw [word?, if_pos hc, hsplit.1, hsplit.2]
  rfl

/-! ### Numbers -/

section Digits

variable {digits suffix : List Char} (hne : digits ≠ [])
  (hdigits : ∀ c ∈ digits, Numeral.isDigit c = true) (hsuffix : suffix ∈ [[], ['i'], ['u']])
  (hrest : Ends rest)

include hne hdigits hsuffix hrest

theorem number?_digits (lead : List Char) : number? lead (digits ++ (suffix ++ rest)) =
    some (.token .intLiteral (lead ++ (digits ++ suffix)) rest) := by
  obtain ⟨d, ds, rfl⟩ := List.exists_cons_of_ne_nil hne
  have hstarts : Numeral.starts (d :: ds ++ (suffix ++ rest)) = true := by
    have hd := hdigits d (List.mem_cons_self ..)
    show Numeral.starts (d :: (ds ++ (suffix ++ rest))) = true
    unfold Numeral.starts
    split
    · rename_i h
      rw [(List.cons.inj h).1] at hd
      cases hd
    · rename_i h
      rwa [← (List.cons.inj h).1]
    · rename_i h
      cases h
  rw [number?, if_pos hstarts, Numeral.scanNumber_digits hne hdigits hsuffix hrest]
  rfl

/-- Digits and a type letter are one token. -/
theorem scans_digits : Scans recent (digits ++ suffix ++ rest)
    [⟨.intLiteral, String.ofList (digits ++ suffix), 1⟩] rest := by
  have hnumber := number?_digits hne hdigits hsuffix hrest []
  obtain ⟨d, ds, rfl⟩ := List.exists_cons_of_ne_nil hne
  obtain ⟨hlow, hhigh⟩ := toNat_of_isDigit (hdigits d (List.mem_cons_self ..))
  have hslash : d ≠ '/' := by
    rintro rfl
    exact absurd hlow (by decide)
  refine .of_piece (piece_eq (gap?_eq_none (by omega) (by omega) hslash) ?_)
  rw [List.cons_append] at hnumber
  rw [List.append_eq, List.append_assoc, hnumber]
  rfl

/-- A sign belongs to the digits where no operand ends in front of it. -/
theorem scans_negative (hrecent : (recent.head?.map (·.kind.endsOperand)).getD false = false) :
    Scans recent ('-' :: (digits ++ suffix) ++ rest)
      [⟨.intLiteral, String.ofList ('-' :: (digits ++ suffix)), 1⟩] rest := by
  have hnumber := number?_digits hne hdigits hsuffix hrest ['-']
  refine .of_piece (piece_eq (gap?_eq_none (by decide) (by decide) (by decide)) ?_)
  rw [number?_eq_none (starts_eq_false (by decide) (by decide)), negative?, hrecent,
    if_neg Bool.false_ne_true, List.append_assoc, hnumber]
  rfl

end Digits

/-! ### Operators -/

/-- Punctuation that is the beginning of no other operator. -/
theorem scans_punctuation {c : Char} {kind : TokenKind}
    (h : (c, kind) ∈ [('(', TokenKind.parenLeft), (')', .parenRight), ('[', .bracketLeft),
      (']', .bracketRight), (',', .comma)]) :
    Scans recent (c :: rest) [⟨kind, String.ofList [c], 1⟩] rest := by
  simp only [List.mem_cons, Prod.mk.injEq, List.not_mem_nil, or_false] at h
  obtain ⟨rfl, rfl⟩ | ⟨rfl, rfl⟩ | ⟨rfl, rfl⟩ | ⟨rfl, rfl⟩ | ⟨rfl, rfl⟩ := h <;>
    exact .of_piece (r := []) rfl

/-- A point in front of a word. -/
theorem scans_point {c : Char} (hc : Numeral.isDigit c = false) :
    Scans recent ('.' :: c :: rest) [⟨.period, ".", 1⟩] (c :: rest) := by
  refine .of_piece (r := []) (piece_eq rfl ?_)
  rw [List.nil_append]
  rw [number?_eq_none (show Numeral.starts ('.' :: c :: rest) = false from hc)]
  rfl

/-- Where no name in front opens a template list, none is closed. -/
theorem closesTemplate_eq_false (h : ∀ t ∈ recent, t.IsPlain) (budget : Nat) :
    closesTemplate budget recent = false := by
  induction recent generalizing budget with
  | nil => cases budget <;> rfl
  | cons t older ih =>
    cases budget with
    | zero => rfl
    | succ budget =>
      unfold closesTemplate
      split
      · rfl
      split
      · cases older with
        | nil => rfl
        | cons name _ =>
          have hname := h name (by simp)
          show (decide (name.kind = .identifier) && isTemplateName name.lexeme) = false
          by_cases hk : name.kind = .identifier
          · have := (hname hk).1
            rw [TypeName.isBuiltin, Bool.or_eq_false_iff, Bool.or_eq_false_iff] at this
            rw [this.1.2, Bool.and_false]
          · rw [decide_eq_false hk, Bool.false_and]
      · exact ih (fun t ht => h t (List.mem_cons_of_mem _ ht)) budget

theorem templateEnd?_eq_none (h : closesTemplate templateLookback recent = false) :
    templateEnd? recent cs = none := by
  unfold templateEnd?
  split
  · rw [h, Bool.and_false]
    rfl
  · rfl

/-- A binary operator between spaces. -/
theorem scans_binaryOp (h : ∀ t ∈ recent, t.IsPlain) (op : BinaryOp) :
    Scans recent (op.symbol.toList ++ ' ' :: rest) [⟨op.token, op.symbol, 1⟩] (' ' :: rest) := by
  have hclose := closesTemplate_eq_false h templateLookback
  have hpiece : piece recent (op.symbol.toList ++ ' ' :: rest) =
      .ok (.token op.token op.symbol.toList (' ' :: rest)) := by
    cases op
    case subtract =>
      show piece recent ('-' :: ' ' :: rest) = .ok (.token .minus ['-'] (' ' :: rest))
      exact piece_eq rfl (by rw [negative?_minus (by rfl)]; rfl)
    case greaterEqual =>
      show piece recent ('>' :: '=' :: ' ' :: rest) = .ok (.token .greaterThanEqual ['>', '='] (' ' :: rest))
      exact piece_eq rfl (by rw [templateEnd?_eq_none hclose]; rfl)
    case shiftRight =>
      show piece recent ('>' :: '>' :: ' ' :: rest) = .ok (.token .shiftRight ['>', '>'] (' ' :: rest))
      exact piece_eq rfl (by rw [templateEnd?_eq_none hclose]; rfl)
    all_goals rfl
  obtain ⟨c, r, hsymbol⟩ := List.exists_cons_of_ne_nil (show op.symbol.toList ≠ [] by cases op <;> decide)
  rw [hsymbol] at hpiece ⊢
  rw [show op.symbol = String.ofList (c :: r) by rw [← hsymbol, String.ofList_toList]]
  exact .of_piece hpiece

/-- A unary operator in front of a character that it is not scanned together with. -/
theorem scans_unaryOp {op : UnaryOp} {c : Char} (hc : op.fuses c = false) :
    Scans recent (op.symbol.toList ++ c :: rest) [⟨op.token, op.symbol, 1⟩] (c :: rest) := by
  have hpiece : piece recent (op.symbol.toList ++ c :: rest) =
      .ok (.token op.token op.symbol.toList (c :: rest)) := by
    have hne : ∀ {d : Char}, op.fuses d = true → (d == c) = false := by
      intro d hd
      rw [beq_eq_false_iff_ne]
      rintro rfl
      rw [hd] at hc
      cases hc
    cases op
    case negate =>
      show piece recent ('-' :: c :: rest) = .ok (.token .minus ['-'] (c :: rest))
      have hstarts : Numeral.starts (c :: rest) = false := by
        rw [UnaryOp.fuses, Bool.or_eq_false_iff] at hc
        exact starts_eq_false hc.1 fun h => by
          rw [h] at hc
          cases hc.2
      refine piece_eq rfl ?_
      rw [negative?_minus hstarts]
      show operator? _ = _
      simp [operator?, operators, List.isPrefixOf, hne (d := '>') rfl, hne (d := '-') rfl,
        hne (d := '=') rfl]
    case not =>
      show piece recent ('!' :: c :: rest) = .ok (.token .bang ['!'] (c :: rest))
      refine piece_eq rfl ?_
      show operator? _ = _
      simp [operator?, operators, List.isPrefixOf, hne (d := '=') rfl]
    case complement => rfl
    case addressOf =>
      show piece recent ('&' :: c :: rest) = .ok (.token .and ['&'] (c :: rest))
      refine piece_eq rfl ?_
      show operator? _ = _
      simp [operator?, operators, List.isPrefixOf, hne (d := '&') rfl, hne (d := '=') rfl]
    case deref =>
      show piece recent ('*' :: c :: rest) = .ok (.token .star ['*'] (c :: rest))
      refine piece_eq rfl ?_
      show operator? _ = _
      simp [operator?, operators, List.isPrefixOf, hne (d := '=') rfl]
  obtain ⟨d, r, hsymbol⟩ := List.exists_cons_of_ne_nil (show op.symbol.toList ≠ [] by cases op <;> decide)
  rw [hsymbol] at hpiece ⊢
  rw [show op.symbol = String.ofList (d :: r) by rw [← hsymbol, String.ofList_toList]]
  exact .of_piece hpiece

/-! ## Tokens of expressions -/

/-- The tokens are taken, and no end mark and no name that starts a type is among them. -/
structure Takes (recent : List Token) (cs : List Char) (ts : List Token) (rest : List Char) : Prop where
  scans : Scans recent cs ts rest
  plain : ∀ t ∈ ts, t.kind ≠ .eof ∧ t.IsPlain

theorem Takes.append (h : Takes recent cs ts mid) (h' : Takes (ts.reverse ++ recent) mid us rest) :
    Takes recent cs (ts ++ us) rest where
  scans := h.scans.append h'.scans
  plain t ht := (List.mem_append.mp ht).elim (h.plain t) (h'.plain t)

theorem Takes.space (h : Takes recent cs ts rest) : Takes recent (' ' :: cs) ts rest :=
  ⟨h.scans.space, h.plain⟩

/-- What was recent stays plain. -/
theorem Takes.recent_plain (h : Takes recent cs ts rest) (hrecent : ∀ t ∈ recent, t.IsPlain) :
    ∀ t ∈ ts.reverse ++ recent, t.IsPlain := fun t ht =>
  (List.mem_append.mp ht).elim (fun ht => (h.plain t (List.mem_reverse.mp ht)).2) (hrecent t)

/-- A token that is neither the end mark nor a name. -/
theorem takes_one {t : Token} (h : Scans recent cs [t] rest)
    (hk : t.kind ≠ .eof ∧ t.kind ≠ .identifier) : Takes recent cs [t] rest where
  scans := h
  plain u hu := by
    obtain rfl := List.mem_singleton.mp hu
    exact ⟨hk.1, fun h => absurd h hk.2⟩

/-! ## What is scanned as an identifier -/

theorem kind_of_scanNumber {m : Numeral.Match} (h : Numeral.scanNumber cs = some m) :
    m.kind = .intLiteral ∨ m.kind = .floatLiteral := by
  let Numeric (best : Option Numeral.Match) : Prop :=
    ∀ m, best = some m → m.kind = .intLiteral ∨ m.kind = .floatLiteral
  have numeric : Numeric (Numeral.scanNumber cs) := by
    refine List.foldlRecOn (motive := Numeric) Numeral.languages _ (by exact nofun) fun best hbest language hl => ?_
    obtain ⟨kind, r⟩ := language
    have hkind : kind = .intLiteral ∨ kind = .floatLiteral := by
      have kinds : kind ∈ Numeral.languages.map Prod.fst := List.mem_map_of_mem hl
      simpa [Numeral.languages, or_comm] using kinds
    dsimp only
    split
    · unfold Numeral.longer
      split
      · intro m hm
        cases hm
        exact hkind
      · split
        · intro m hm
          cases hm
          exact hkind
        · exact hbest
    · exact hbest
  exact numeric m h

/-- A numeral is no identifier. -/
theorem kind_of_number? {lead lexeme : List Char} {kind : TokenKind}
    (h : number? lead cs = some (.token kind lexeme rest)) : kind ≠ .identifier := by
  unfold number? at h
  split at h
  · obtain ⟨m, hm, e⟩ := Option.map_eq_some_iff.1 h
    cases e
    rcases kind_of_scanNumber hm with hk | hk <;> rw [hk] <;> exact nofun
  · cases h

theorem kind_of_operator? {lexeme : List Char} {kind : TokenKind}
    (h : operator? cs = some (.token kind lexeme rest)) : kind ≠ .identifier := by
  obtain ⟨entry, hfound, e⟩ := Option.map_eq_some_iff.1 h
  cases e
  have others : ∀ entry ∈ operators, entry.2 ≠ .identifier := by decide
  exact others entry (List.mem_of_find?_eq_some hfound)

theorem isWord_of_word? {lexeme : List Char} {kind : TokenKind}
    (h : word? cs = some (.token kind lexeme rest)) : IsWord lexeme := by
  unfold word? at h
  split at h
  · rename_i c r
    split at h
    · rename_i hc
      cases h
      exact ⟨c, _, rfl, hc, fun d hd => List.mem_takeWhile_imp hd⟩
    · cases h
  · cases h

/-- Blanks and comments are no tokens. -/
theorem gap_of_gap? {p : Piece} (h : gap? cs = .ok (some p)) : ∃ rest newlines, p = .gap rest newlines := by
  unfold gap? at h
  split at h
  · cases h
    exact ⟨_, _, rfl⟩
  · split at h <;> cases h
    exact ⟨_, _, rfl⟩
  · split at h <;> cases h
    exact ⟨_, _, rfl⟩
  · cases h

theorem isWord_of_piece {lexeme : List Char}
    (h : piece recent cs = .ok (.token .identifier lexeme rest)) : IsWord lexeme := by
  unfold piece at h
  split at h
  · cases h
  · rename_i p hgap
    obtain ⟨rest', newlines, rfl⟩ := gap_of_gap? hgap
    cases h
  · split at h
    · rename_i p hp
      cases h
      rcases (Option.orElse_eq_some _ _ _).1 hp with hnumber | ⟨-, hp⟩
      · exact (kind_of_number? hnumber rfl).elim
      rcases (Option.orElse_eq_some _ _ _).1 hp with hnegative | ⟨-, hp⟩
      · unfold negative? at hnegative
        split at hnegative
        · split at hnegative
          · cases hnegative
          · exact (kind_of_number? hnegative rfl).elim
        · cases hnegative
      rcases (Option.orElse_eq_some _ _ _).1 hp with hword | ⟨-, hp⟩
      · exact isWord_of_word? hword
      rcases (Option.orElse_eq_some _ _ _).1 hp with hend | ⟨-, hp⟩
      · unfold templateEnd? at hend
        split at hend
        · split at hend <;> cases hend
        · cases hend
      · exact (kind_of_operator? hp rfl).elim
    · cases h

theorem isWord_of_scan : ∀ {budget line : Nat} {recent : List Token} {cs : List Char},
    (∀ t ∈ recent, t.kind = .identifier → IsWord t.lexeme.toList) →
    scan budget line recent cs = .ok ts → ∀ t ∈ ts, t.kind = .identifier → IsWord t.lexeme.toList := by
  have ended : ∀ {line : Nat} {recent : List Token},
      (∀ t ∈ recent, t.kind = .identifier → IsWord t.lexeme.toList) →
      ∀ t ∈ recent.reverse ++ [⟨.eof, "", line⟩], t.kind = .identifier → IsWord t.lexeme.toList := by
    intro line recent hrecent t ht hk
    rcases List.mem_append.1 ht with ht | ht
    · exact hrecent t (List.mem_reverse.1 ht) hk
    · cases List.mem_singleton.1 ht
      cases hk
  intro budget
  induction budget with
  | zero =>
    intro line recent cs hrecent h
    cases cs <;> cases h <;> exact ended hrecent
  | succ budget ih =>
    intro line recent cs hrecent h
    cases cs with
    | nil =>
      cases h
      exact ended hrecent
    | cons c r =>
      rw [scan] at h
      split at h
      · cases h
      · exact ih hrecent h
      · rename_i kind lexeme rest hpiece
        refine ih (List.forall_mem_cons.2 ⟨fun hk => ?_, hrecent⟩) h
        dsimp only at hk
        subst hk
        rw [String.toList_ofList]
        exact isWord_of_piece hpiece

/-- Identifiers are words. -/
theorem isWord_of_tokenize {source : String} (h : tokenize source = .ok ts) :
    ∀ t ∈ ts, t.kind = .identifier → IsWord t.lexeme.toList :=
  isWord_of_scan (fun _ ht => by cases ht) h

theorem IsWord.no_bracket (h : IsWord cs) : '<' ∉ cs := by
  obtain ⟨c, r, rfl, hc, hr⟩ := h
  intro hmem
  rcases List.mem_cons.1 hmem with rfl | hmem
  · cases hc
  · cases hr _ hmem

end Token

end Wgsl
