import Wgsl.Print
import Wgsl.Proofs.Parse.TypeExpr

/-! # Printed types read back

The text of a type is scanned into the tokens of the type and read as the same type, provided that
every closing bracket in front of another has an opening one near. Deeper nesting is not told from a
shift.
-/

namespace Wgsl
set_option autoImplicit false

open Token

namespace TypeExpr

/-! ## Texts -/

/-- The text of a type is that of its tokens. -/
theorem text_eq_printed {t : TypeExpr} (h : t.Printable) : t.text.toList = printed t.tokens := by
  induction h with
  | named => simp [text, tokens, printed, chars, word]
  | generator =>
    rw [tokens_generator]
    simp [text, paramText, printed, chars, word]
  | @applied _ name param access _ _ _ _ _ _ _ ih =>
    rw [tokens_applied]
    cases access <;>
      simp [text, paramText, accessTokens, printed, chars, word, opening, closing, comma, ih,
        String.intercalate_cons_cons]
  | @pointer _ param access space _ _ _ ih =>
    rw [tokens_pointer]
    cases access <;>
      simp [text, paramText, accessTokens, printed, chars, word, opening, closing, comma, ih,
        String.intercalate_cons_cons]
  | @storage _ name access format =>
    rw [tokens_storage]
    cases access <;>
      simp [text, paramText, accessTokens, printed, chars, word, opening, closing, comma,
        String.intercalate_cons_cons]
  | @array _ element count _ _ ih =>
    rw [tokens_array]
    cases count <;>
      simp [text, paramText, countTokens, printed, chars, word, numeral, opening, closing, comma, ih]

/-! ## Tokens side by side -/

/-- A run that may stand between an opening bracket and what closes it. -/
structure Framed (ts : List Token) : Prop where
  ne : ts ≠ []
  chain : ts.IsChain Adjacent
  written : ∀ t ∈ ts, Written t
  first : ∀ t ∈ ts.head?, t.kind = .identifier
  last : ∀ t ∈ ts.getLast?, t.kind = .identifier ∨ t.kind = .greaterThan

theorem framed_word {name : String} (h : IsIdentifier name) : Framed [word name] where
  ne := List.cons_ne_nil _ _
  chain := .singleton _
  written t ht := by
    obtain rfl := List.mem_singleton.mp ht
    exact .word h
  first := by
    rintro t ⟨⟩
    rfl
  last := by
    rintro t ⟨⟩
    exact .inl rfl

/-- What stands behind a parameter: nothing or a comma and one more token. -/
structure Tail (ts : List Token) : Prop where
  chain : (ts ++ [closing]).IsChain Adjacent
  written : ∀ t ∈ ts, Written t
  first : ∀ t ∈ (ts ++ [closing]).head?, t.kind = .comma ∨ t.kind = .greaterThan

theorem tail_accessTokens {access : Option String} (h : ∀ a ∈ access, IsIdentifier a) :
    Tail (accessTokens access) := by
  cases access with
  | none => exact ⟨.singleton _, (fun _ h => nomatch h), by rintro t ⟨⟩; exact .inr rfl⟩
  | some a =>
    refine ⟨.cons_cons trivial (.cons_cons trivial (.singleton _)), fun t ht => ?_, by rintro t ⟨⟩; exact .inl rfl⟩
    simp only [accessTokens, List.mem_cons, List.not_mem_nil, or_false] at ht
    obtain rfl | rfl := ht
    · exact .comma
    · exact .word (h a rfl)

theorem tail_countTokens (count : Option UInt32) : Tail (countTokens count) := by
  cases count with
  | none => exact ⟨.singleton _, (fun _ h => nomatch h), by rintro t ⟨⟩; exact .inr rfl⟩
  | some c =>
    refine ⟨.cons_cons trivial (.cons_cons trivial (.singleton _)), fun t ht => ?_, by rintro t ⟨⟩; exact .inl rfl⟩
    simp only [countTokens, List.mem_cons, List.not_mem_nil, or_false] at ht
    obtain rfl | rfl := ht
    · exact .comma
    · exact .numeral _

/-- A generator with its parameters in brackets. -/
theorem framed_brackets {name : String} {param tail : List Token} (h : IsIdentifier name)
    (htemplate : isTemplateName name = true) (hparam : Framed param) (htail : Tail tail) :
    Framed (word name :: opening :: (param ++ (tail ++ [closing]))) where
  ne := List.cons_ne_nil _ _
  chain := by
    have hends : ∀ t ∈ param.getLast?, ∀ u ∈ (tail ++ [closing]).head?, Adjacent t u := by
      intro t ht u hu
      have hclose := hparam.last t ht
      have hnext := htail.first u hu
      rw [Adjacent]
      obtain hclose | hclose := hclose <;> obtain hnext | hnext := hnext <;> rw [hclose, hnext] <;> trivial
    have hinside : (param ++ (tail ++ [closing])).IsChain Adjacent :=
      List.isChain_append.mpr ⟨hparam.chain, htail.chain, hends⟩
    obtain ⟨t, r, rfl⟩ := List.exists_cons_of_ne_nil hparam.ne
    refine .cons_cons htemplate (.cons_cons ?_ hinside)
    rw [Adjacent, hparam.first t rfl]
    trivial
  written t ht := by
    simp only [List.mem_cons, List.mem_append, List.not_mem_nil, or_false] at ht
    obtain rfl | rfl | ht | ht | rfl := ht
    · exact .word h
    · exact .opening
    · exact hparam.written t ht
    · exact htail.written t ht
    · exact .closing
  first := by
    rintro t ⟨⟩
    rfl
  last t ht := by
    obtain rfl : closing = t := by simpa [List.getLast?_cons, List.getLast?_append] using ht
    exact .inr rfl

/-- An address space in front of a type. -/
theorem framed_space {space : String} {param : List Token} (h : IsIdentifier space) (hparam : Framed param) :
    Framed (word space :: comma :: param) where
  ne := List.cons_ne_nil _ _
  chain := by
    obtain ⟨t, r, rfl⟩ := List.exists_cons_of_ne_nil hparam.ne
    refine .cons_cons trivial (.cons_cons ?_ hparam.chain)
    rw [Adjacent, hparam.first t rfl]
    trivial
  written t ht := by
    simp only [List.mem_cons] at ht
    obtain rfl | rfl | ht := ht
    · exact .word h
    · exact .comma
    · exact hparam.written t ht
  first := by
    rintro t ⟨⟩
    rfl
  last := by
    obtain ⟨t, r, rfl⟩ := List.exists_cons_of_ne_nil hparam.ne
    exact hparam.last

theorem isIdentifier_array : IsIdentifier "array" :=
  ⟨⟨'a', ['r', 'r', 'a', 'y'], rfl, rfl, List.all_eq_true.mp rfl⟩, by decide⟩

theorem isIdentifier_ptr : IsIdentifier "ptr" :=
  ⟨⟨'p', ['t', 'r'], rfl, rfl, List.all_eq_true.mp rfl⟩, by decide⟩

/-- The tokens of a type stand side by side as they may, by induction on its form. -/
theorem framed_tokens {t : TypeExpr} (h : t.Printable) : Framed t.tokens := by
  induction h with
  | named h => exact framed_word h
  | generator h => exact framed_word h
  | applied h htemplate _ _ _ haccess _ ih =>
    rw [tokens_applied]
    exact framed_brackets h htemplate ih (tail_accessTokens haccess)
  | @pointer _ param access space hspace haccess _ ih =>
    rw [tokens_pointer]
    exact framed_brackets isIdentifier_ptr (by decide) (framed_space hspace ih) (tail_accessTokens haccess)
  | @storage _ name access format h hstorage hformat haccess =>
    rw [tokens_storage]
    exact framed_brackets h (template_of_storage hstorage).1 (framed_word hformat) (tail_accessTokens haccess)
  | @array _ element count _ _ ih =>
    rw [tokens_array]
    exact framed_brackets isIdentifier_array (by decide) ih (tail_countTokens count)

/-! ## Reading a text -/

/-- The text of a type is read as a whole as the same type, up to numbers and recorded count
expressions, if every closing bracket in front of another has an opening one among the five tokens
before it. -/
theorem typeExpr_text {t : TypeExpr} (h : t.Printable) (hnear : NearlyOpened [] t.tokens) :
    ∃ tokens t' s', Token.tokenize t.text = .ok tokens ∧
      Parser.typeExpr.run (.ofTokens tokens) = .ok (t', s') ∧ s'.rest = [] ∧ t'.skeleton = t.skeleton := by
  have hframed := framed_tokens h
  have hfirst : ∀ u ∈ t.tokens.head?, u.kind = .lessThan → ∃ name ∈ ([] : List Token).head?,
      name.kind = .identifier ∧ isTemplateName name.lexeme = true := by
    intro u hu hk
    rw [hframed.first u hu] at hk
    cases hk
  have hscans : Scans [] t.text.toList t.tokens [] := by
    rw [text_eq_printed h]
    exact scans_printed hframed.chain hframed.written trivial hfirst hnear
  have hend : ∀ u ∈ t.tokens, u.kind ≠ .eof := fun u hu => by
    cases hframed.written u hu <;> exact fun h => nomatch h
  have hstate := ParseState.ofTokens_eq (show (⟨.eof, "", 1⟩ : Token).kind = .eof from rfl) hend
  let s : ParseState := { rest := t.tokens, last := ⟨.eof, "", 1⟩ }
  obtain ⟨t', id, hrun, heq⟩ := @reads_tokens t h (2 * (t.tokens.length + 1)) s []
    (List.append_nil _).symm (by omega) (Nat.succ_pos _) (fun h => nomatch h)
  refine ⟨_, t', s.past [] id, tokenize_of_scans hscans, ?_, rfl, heq⟩
  rw [hstate, Parser.typeExpr, Parser.run_depthAhead]
  exact hrun

theorem isIdentifier_f32 : IsIdentifier "f32" :=
  ⟨⟨'f', ['3', '2'], rfl, rfl, List.all_eq_true.mp rfl⟩, by decide⟩

theorem printable_f32 {id : NodeId} : Printable (.named id [] "f32") :=
  .named isIdentifier_f32 (by decide) (by decide)

/-- Pointers to runtime-sized arrays of matrices are read back. -/
theorem typeExpr_text_pointer :
    let t : TypeExpr := .template 3 [] "ptr" (some (.array 2 [] (some (.template 1 [] "mat2x2"
      (some (.named 0 [] "f32")) none none)) none none)) none (some "storage")
    (t.Printable ∧ NearlyOpened [] t.tokens) ∧ ∃ tokens t' s', Token.tokenize t.text = .ok tokens ∧
      Parser.typeExpr.run (.ofTokens tokens) = .ok (t', s') ∧ s'.rest = [] ∧ t'.skeleton = t.skeleton := by
  intro t
  have hprintable : t.Printable := by
    refine .pointer ⟨⟨'s', ['t', 'o', 'r', 'a', 'g', 'e'], rfl, rfl, List.all_eq_true.mp rfl⟩, by decide⟩
      (fun _ h => nomatch h) (.array (.applied ⟨⟨'m', ['a', 't', '2', 'x', '2'], rfl, rfl,
        List.all_eq_true.mp rfl⟩, by decide⟩ (by decide) (by decide) (by decide) (by decide)
        (fun _ h => nomatch h) printable_f32))
  have hnear : NearlyOpened [] t.tokens := by decide +kernel
  exact ⟨⟨hprintable, hnear⟩, typeExpr_text hprintable hnear⟩

/-- Six arrays inside one another are not read back: the fifth closing bracket is too far from the
last opening one, and the text ends with a shift. -/
theorem typeExpr_text_shift :
    let nest (t : TypeExpr) : TypeExpr := .array 0 [] (some t) none none
    let t := nest (nest (nest (nest (nest (nest (.named 0 [] "f32"))))))
    t.Printable ∧ ¬∃ tokens t' s', Token.tokenize t.text = .ok tokens ∧
      Parser.typeExpr.run (.ofTokens tokens) = .ok (t', s') ∧ s'.rest = [] ∧ t'.skeleton = t.skeleton := by
  intro nest t
  constructor
  · exact .array (.array (.array (.array (.array (.array printable_f32)))))
  · rintro ⟨tokens, t', s', htokens, hrun, -⟩
    have hscan : Token.tokenize "array<array<array<array<array<array<f32>>>>>>" = .ok [word "array", opening,
      word "array", opening, word "array", opening, word "array", opening, word "array", opening,
      word "array", opening, word "f32", closing, closing, closing, closing, ⟨.shiftRight, ">>", 1⟩,
      ⟨.eof, "", 1⟩] := by decide +kernel
    have htext : t.text = "array<array<array<array<array<array<f32>>>>>>" := rfl
    rw [htext, hscan] at htokens
    cases htokens
    have hfail : (Parser.typeExpr.run (.ofTokens [word "array", opening,
      word "array", opening, word "array", opening, word "array", opening, word "array", opening,
      word "array", opening, word "f32", closing, closing, closing, closing, ⟨.shiftRight, ">>", 1⟩,
      ⟨.eof, "", 1⟩])).isOk = false := by decide +kernel
    rw [hrun] at hfail
    cases hfail

end TypeExpr

end Wgsl
