import Wgsl.Proofs.Token.Scanning

/-! # Scanning printed type names

The text of a type is a run of words, numerals, brackets and commas. A closing bracket in front of
another is scanned alone only if an opening bracket is among the five tokens before it; then every
token is scanned as it was printed.

* `Token.printed`: the text of such a run.
* `Token.Adjacent`: which tokens stand side by side in it.
* `Token.NearlyOpened`: the opening brackets are near enough.
* `Token.scans_printed`: the run is scanned token by token.
-/

namespace Wgsl
set_option autoImplicit false

namespace Token

/-! ## Printed tokens -/

def word (name : String) : Token := ⟨.identifier, name, 1⟩
def numeral (n : Nat) : Token := ⟨.intLiteral, toString n, 1⟩
def opening : Token := ⟨.lessThan, "<", 1⟩
def closing : Token := ⟨.greaterThan, ">", 1⟩
def comma : Token := ⟨.comma, ",", 1⟩

/-- A word that is neither reserved nor a lone underscore. -/
structure IsIdentifier (name : String) : Prop where
  word : IsWord name.toList
  kind : wordKind name = .identifier

/-- The tokens of types. -/
inductive Written : Token → Prop where
  | word {name : String} (h : IsIdentifier name) : Written (word name)
  | numeral (n : Nat) : Written (numeral n)
  | opening : Written opening
  | closing : Written closing
  | comma : Written comma

/-- Which token may stand directly behind which. -/
def Adjacent (t u : Token) : Prop :=
  match t.kind, u.kind with
  | .identifier, .lessThan => isTemplateName t.lexeme = true
  | .identifier, .greaterThan | .identifier, .comma => True
  | .intLiteral, .greaterThan => True
  | .lessThan, .identifier => True
  | .comma, .identifier | .comma, .intLiteral => True
  | .greaterThan, .greaterThan | .greaterThan, .comma => True
  | _, _ => False

/-- The text of one token. A comma is followed by a space. -/
def chars (t : Token) : List Char := if t.kind = .comma then [',', ' '] else t.lexeme.toList

/-- The text of a run of tokens. -/
def printed (ts : List Token) : List Char := ts.flatMap chars

/-! ## Brackets that are closed -/

/-- Every bracket among the recent tokens (latest first) opened a template list, and nothing was
assigned. -/
def Opened : List Token → Prop
  | [] => True
  | t :: older => t.kind.isAssignment = false ∧
    (t.kind = .lessThan → ∃ name ∈ older.head?, name.kind = .identifier ∧ isTemplateName name.lexeme = true) ∧
    Opened older

/-- Whenever a closing bracket stands directly in front of another, an opening bracket is among the
few tokens before it that are looked at. The recent tokens (latest first) stand in front of the run. -/
def NearlyOpened (recent ts : List Token) : Prop :=
  ∀ before behind : List Token, ts = before ++ closing :: closing :: behind →
    ∃ t ∈ (before.reverse ++ recent).take templateLookback, t.kind = .lessThan

theorem closesTemplate_of_opened : ∀ {budget : Nat} {recent : List Token}, Opened recent →
    (∃ t ∈ recent.take budget, t.kind = .lessThan) → closesTemplate budget recent = true
  | 0, _, _, ⟨_, ht, _⟩ => by simp at ht
  | _ + 1, [], _, ⟨_, ht, _⟩ => by simp at ht
  | budget + 1, t :: older, ⟨hassign, hname, holder⟩, ⟨u, hu, hk⟩ => by
    unfold closesTemplate
    rw [hassign, if_neg Bool.false_ne_true]
    split
    · rename_i hopen
      obtain ⟨name, hmem, hident, htemplate⟩ := hname hopen
      obtain ⟨r, rfl⟩ : ∃ r, older = name :: r := by
        cases older with
        | nil => cases hmem
        | cons n r =>
          cases hmem
          exact ⟨r, rfl⟩
      show (decide (name.kind = .identifier) && isTemplateName name.lexeme) = true
      rw [htemplate, decide_eq_true hident]
      rfl
    · rename_i hopen
      rw [List.take_succ_cons, List.mem_cons] at hu
      obtain rfl | hu := hu
      · exact absurd hk hopen
      · exact closesTemplate_of_opened holder ⟨u, hu, hk⟩

/-! ## Pieces of a run -/

section Pieces

variable {recent : List Token} {rest : List Char}

theorem scans_opening (hrest : ∀ c ∈ rest.head?, c ≠ '<' ∧ c ≠ '=') :
    Scans recent ('<' :: rest) [opening] rest := by
  refine .of_piece (r := []) (piece_eq rfl ?_)
  cases rest with
  | nil => rfl
  | cons c r =>
    obtain ⟨hangle, hequal⟩ := hrest c rfl
    show operator? ('<' :: c :: r) = _
    simp [operator?, operators, List.isPrefixOf, Ne.symm hangle, Ne.symm hequal]

/-- A closing bracket that no other bracket or equals sign follows. -/
theorem scans_closing (hrest : ∀ c ∈ rest.head?, c ≠ '>' ∧ c ≠ '=') :
    Scans recent ('>' :: rest) [closing] rest := by
  refine .of_piece (r := []) (piece_eq rfl ?_)
  cases rest with
  | nil => rfl
  | cons c r =>
    obtain ⟨hangle, hequal⟩ := hrest c rfl
    have htemplate : templateEnd? recent ('>' :: c :: r) = none := by
      show (if ((c == '>' || c == '=') && _) = true then _ else _) = _
      rw [beq_eq_false_iff_ne.mpr hangle, beq_eq_false_iff_ne.mpr hequal]
      rfl
    show (templateEnd? recent ('>' :: c :: r) <|> operator? ('>' :: c :: r)) = _
    rw [htemplate]
    simp [operator?, operators, List.isPrefixOf, Ne.symm hangle, Ne.symm hequal]

/-- A closing bracket in front of another, with an opening one near. -/
theorem scans_closing_closing (h : closesTemplate templateLookback recent = true) :
    Scans recent ('>' :: '>' :: rest) [closing] ('>' :: rest) := by
  refine .of_piece (r := []) (piece_eq rfl ?_)
  show (templateEnd? recent ('>' :: '>' :: rest) <|> _) = _
  rw [templateEnd?, h]
  rfl

end Pieces

/-! ## Runs -/

theorem nearlyOpened_nil {recent : List Token} : NearlyOpened recent [] := by
  intro before behind hts
  cases before <;> cases hts

/-- What is asked of the first token, and of the others with the first among the recent ones. -/
theorem nearlyOpened_cons {recent ts : List Token} {t : Token} : NearlyOpened recent (t :: ts) ↔
    (t = closing ∧ ts.head? = some closing → ∃ u ∈ recent.take templateLookback, u.kind = .lessThan) ∧
      NearlyOpened (t :: recent) ts := by
  constructor
  · intro h
    constructor
    · rintro ⟨rfl, hhead⟩
      obtain ⟨behind, rfl⟩ := List.head?_eq_some_iff.mp hhead
      exact h [] behind rfl
    · intro before behind hts
      have hopen := h (t :: before) behind (by rw [hts]; rfl)
      rwa [List.reverse_cons, List.append_assoc] at hopen
  · rintro ⟨hhead, htail⟩ before behind hts
    cases before with
    | nil =>
      cases hts
      exact hhead ⟨rfl, rfl⟩
    | cons u before =>
      cases hts
      rw [List.reverse_cons, List.append_assoc]
      exact htail before behind rfl

instance decidableNearlyOpened : ∀ recent ts : List Token, Decidable (NearlyOpened recent ts)
  | _, [] => .isTrue nearlyOpened_nil
  | recent, t :: ts =>
    have := decidableNearlyOpened (t :: recent) ts
    decidable_of_iff _ nearlyOpened_cons.symm

theorem printed_cons (t : Token) (ts : List Token) : printed (t :: ts) = chars t ++ printed ts := rfl

/-- A bracket or a comma carries no word or numeral on. -/
theorem ends_printed {ts : List Token} (hwritten : ∀ t ∈ ts, Written t)
    (h : ∀ t ∈ ts.head?, t.kind ≠ .identifier ∧ t.kind ≠ .intLiteral) : Ends (printed ts) := by
  cases ts with
  | nil => exact fun _ h => nomatch h
  | cons t ts =>
    obtain ⟨hword, hnumeral⟩ := h t rfl
    cases hwritten t (List.mem_cons_self ..) with
    | word => exact absurd rfl hword
    | numeral => exact absurd rfl hnumeral
    | opening | closing | comma =>
      rintro c ⟨⟩
      exact ⟨rfl, by decide⟩

section One

variable {ts recent : List Token} (hwritten : ∀ t ∈ ts, Written t)

include hwritten

theorem scans_one_word {name : String} (h : IsIdentifier name)
    (hnext : ∀ t ∈ ts.head?, Adjacent (word name) t) :
    Scans recent (chars (word name) ++ printed ts) [word name] (printed ts) := by
  have hends : Ends (printed ts) := ends_printed hwritten fun t ht => by
    have hadjacent := hnext t ht
    constructor <;>
      · intro hk
        rw [Adjacent, hk] at hadjacent
        exact hadjacent.elim
  have hscans : Scans recent (name.toList ++ printed ts) _ (printed ts) :=
    scans_word h.word fun c hc => (hends c hc).1
  rw [String.ofList_toList, h.kind] at hscans
  exact hscans

theorem scans_one_numeral (n : Nat) (hnext : ∀ t ∈ ts.head?, Adjacent (numeral n) t) :
    Scans recent (chars (numeral n) ++ printed ts) [numeral n] (printed ts) := by
  have hends : Ends (printed ts) := ends_printed hwritten fun t ht => by
    have hadjacent := hnext t ht
    constructor <;>
      · intro hk
        rw [Adjacent, hk] at hadjacent
        exact hadjacent.elim
  have hdigits : ∀ c ∈ Nat.toDigits 10 n, Numeral.isDigit c = true := fun _ =>
    Numeral.isDigit_of_mem_toDigits
  have htext : (toString n).toList = Nat.toDigits 10 n := Nat.toList_repr
  have hscans : Scans recent (Nat.toDigits 10 n ++ [] ++ printed ts) _ (printed ts) :=
    scans_digits Nat.toDigits_ne_nil hdigits (by decide) hends
  rw [List.append_nil, ← htext, String.ofList_toList] at hscans
  exact hscans

theorem scans_one_opening (hnext : ∀ t ∈ ts.head?, Adjacent opening t) :
    Scans recent (chars opening ++ printed ts) [opening] (printed ts) := by
  refine scans_opening fun c hc => ?_
  cases ts with
  | nil => cases hc
  | cons t ts =>
    have hadjacent := hnext t rfl
    cases hwritten t (List.mem_cons_self ..) with
    | @word name h =>
      obtain ⟨d, r, hname, hd, -⟩ := h.word
      obtain ⟨hlow, -⟩ := toNat_of_startsWord hd
      have hdc : d = c := by
        rw [printed_cons, show chars (word name) = name.toList from rfl, hname] at hc
        simpa using hc
      subst hdc
      constructor <;>
        · rintro rfl
          revert hlow
          decide
    | numeral | opening | closing | comma => exact hadjacent.elim

theorem scans_one_closing (hopened : Opened recent) (hnext : ∀ t ∈ ts.head?, Adjacent closing t)
    (hnear : NearlyOpened recent (closing :: ts)) :
    Scans recent (chars closing ++ printed ts) [closing] (printed ts) := by
  cases ts with
  | nil => exact scans_closing fun _ h => nomatch h
  | cons t ts =>
    have hadjacent := hnext t rfl
    cases hwritten t (List.mem_cons_self ..) with
    | closing => exact scans_closing_closing (closesTemplate_of_opened hopened (hnear [] ts rfl))
    | comma =>
      refine scans_closing ?_
      rintro c ⟨⟩
      exact ⟨by decide, by decide⟩
    | word | numeral | opening => exact hadjacent.elim

omit hwritten in
theorem scans_one_comma : Scans recent (chars comma ++ printed ts) [comma] (printed ts) := by
  have hcomma : Scans recent (',' :: ' ' :: printed ts) [comma] (' ' :: printed ts) :=
    scans_punctuation (by decide)
  exact hcomma.append (Scans.space .done)

end One

/-- One token, given what stands behind it. -/
theorem scans_one {t : Token} {ts recent : List Token} (hwritten : ∀ u ∈ t :: ts, Written u)
    (hnext : ∀ u ∈ ts.head?, Adjacent t u) (hopened : Opened recent)
    (hnear : NearlyOpened recent (t :: ts)) : Scans recent (chars t ++ printed ts) [t] (printed ts) := by
  have hbehind : ∀ u ∈ ts, Written u := fun u hu => hwritten u (List.mem_cons_of_mem _ hu)
  cases hwritten t (List.mem_cons_self ..) with
  | word h => exact scans_one_word hbehind h hnext
  | numeral n => exact scans_one_numeral hbehind n hnext
  | opening => exact scans_one_opening hbehind hnext
  | closing => exact scans_one_closing hbehind hopened hnext hnear
  | comma => exact scans_one_comma

/-- A run of printed tokens is scanned token by token. -/
theorem scans_printed : ∀ {ts recent : List Token}, ts.IsChain Adjacent → (∀ t ∈ ts, Written t) →
    Opened recent → (∀ t ∈ ts.head?, t.kind = .lessThan → ∃ name ∈ recent.head?,
      name.kind = .identifier ∧ isTemplateName name.lexeme = true) →
    NearlyOpened recent ts → Scans recent (printed ts) ts []
  | [], _, _, _, _, _, _ => .done
  | t :: ts, recent, hchain, hwritten, hopened, hopens, hnear => by
    have hnext : ∀ u ∈ ts.head?, Adjacent t u := fun u hu => by
      cases ts with
      | nil => cases hu
      | cons v ts =>
        cases hu
        exact (List.isChain_cons_cons.mp hchain).1
    have hassign : t.kind.isAssignment = false := by
      cases hwritten t (List.mem_cons_self ..) <;> rfl
    refine (scans_one hwritten hnext hopened hnear).append
      (scans_printed hchain.tail (fun u hu => hwritten u (List.mem_cons_of_mem t hu))
        ⟨hassign, hopens t rfl, hopened⟩ (fun u hu hk => ⟨t, rfl, ?_⟩) (nearlyOpened_cons.mp hnear).2)
    have hadjacent := hnext u hu
    rw [Adjacent, hk] at hadjacent
    cases hwritten t (List.mem_cons_self ..) with
    | word => exact ⟨rfl, hadjacent⟩
    | numeral | opening | closing | comma => exact hadjacent.elim

end Token

end Wgsl
