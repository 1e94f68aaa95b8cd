import Wgsl.Proofs.Parse.Acceptance
import Wgsl.Proofs.Token.Printed

/-! # Reading the tokens of a type

The tokens of a type without attributes are read as the type, up to numbers and count expressions.

* `TypeExpr.Printable`: the forms of types that are printed and read.
* `TypeExpr.tokens`: their tokens from left to right.
* `TypeExpr.reads_tokens`: the induction on the form.
-/

namespace Wgsl
set_option autoImplicit false

open Token

/-! ## Types and their tokens -/

namespace TypeExpr

/-- Types without attributes: plain names, generators alone or with a parameter, pointers, storage
textures with their format, and arrays with an element type. -/
inductive Printable : TypeExpr → Prop where
  | named {id : NodeId} {name : String} (h : IsIdentifier name) (htemplate : isTemplateName name = false)
      (hshort : TypeName.splitShorthand? name = none) : Printable (.named id [] name)
  | generator {id : NodeId} {name : String} (h : IsIdentifier name) (htemplate : isTemplateName name = true)
      (harray : ¬(name = "array" ∨ name = "binding_array")) : Printable (.template id [] name none none none)
  | applied {id : NodeId} {name : String} {param : TypeExpr} {access : Option String} (h : IsIdentifier name)
      (htemplate : isTemplateName name = true) (harray : ¬(name = "array" ∨ name = "binding_array"))
      (hpointer : name ≠ "ptr") (hstorage : "texture_storage".toList.isPrefixOf name.toList = false)
      (haccess : ∀ a ∈ access, IsIdentifier a) (hparam : Printable param) :
      Printable (.template id [] name (some param) access none)
  | pointer {id : NodeId} {param : TypeExpr} {access : Option String} {space : String}
      (hspace : IsIdentifier space) (haccess : ∀ a ∈ access, IsIdentifier a) (hparam : Printable param) :
      Printable (.template id [] "ptr" (some param) access (some space))
  | storage {id : NodeId} {name : String} {access : Option String} {format : String}
      (h : IsIdentifier name) (hstorage : "texture_storage".toList.isPrefixOf name.toList = true)
      (hformat : IsIdentifier format) (haccess : ∀ a ∈ access, IsIdentifier a) :
      Printable (.template id [] name none access (some format))
  | array {id : NodeId} {element : TypeExpr} {count : Option UInt32} {countExpr : Option Expr}
      (h : Printable element) : Printable (.array id [] (some element) count countExpr)

end TypeExpr

/-- Parameters in angle brackets, if there are any. -/
def Token.bracketed (params : List (List Token)) : List Token :=
  if params.isEmpty then [] else opening :: ([comma].intercalate params ++ [closing])

namespace TypeExpr

mutual

/-- The tokens of a type from left to right. -/
def tokens : TypeExpr → List Token
  | named _ _ name => [word name]
  | template _ _ name param access space =>
    word name :: bracketed (space.toList.map (fun s => [word s]) ++ paramTokens param ++
      access.toList.map fun a => [word a])
  | array _ _ element count _ =>
    word "array" :: bracketed (paramTokens element ++ count.toList.map fun c => [numeral c.toNat])

/-- The tokens of an optional parameter, as a list of at most one. -/
def paramTokens : Option TypeExpr → List (List Token)
  | none => []
  | some t => [tokens t]

end

/-- A comma and an access mode. -/
def accessTokens : Option String → List Token
  | none => []
  | some a => [comma, word a]

/-- A comma and a count. -/
def countTokens : Option UInt32 → List Token
  | none => []
  | some c => [comma, numeral c.toNat]

section Tokens

variable {id : NodeId} {attributes : List Attribute} {name space : String} {param : TypeExpr}
  {access : Option String} {count : Option UInt32} {countExpr : Option Expr}

theorem tokens_template {param : Option TypeExpr} {space : Option String} :
    (template id attributes name param access space).tokens =
      word name :: bracketed (space.toList.map (fun s => [word s]) ++ param.toList.map tokens ++
        access.toList.map fun a => [word a]) := by
  cases param <;> rfl

theorem tokens_generator : (template id attributes name none none none).tokens = [word name] := rfl

theorem tokens_applied : (template id attributes name (some param) access none).tokens =
    word name :: opening :: (param.tokens ++ (accessTokens access ++ [closing])) := by
  rw [tokens_template]
  cases access <;> simp [bracketed, accessTokens, List.intercalate]

theorem tokens_pointer : (template id attributes name (some param) access (some space)).tokens =
    word name :: opening :: word space :: comma :: (param.tokens ++ (accessTokens access ++ [closing])) := by
  rw [tokens_template]
  cases access <;> simp [bracketed, accessTokens, List.intercalate]

theorem tokens_storage : (template id attributes name none access (some space)).tokens =
    word name :: opening :: word space :: (accessTokens access ++ [closing]) := by
  rw [tokens_template]
  cases access <;> simp [bracketed, accessTokens, List.intercalate]

theorem tokens_array : (array id attributes (some param) count countExpr).tokens =
    word "array" :: opening :: (param.tokens ++ (countTokens count ++ [closing])) := by
  have unfolded : (array id attributes (some param) count countExpr).tokens =
      word "array" :: bracketed ([param.tokens] ++ count.toList.map fun c => [numeral c.toNat]) := rfl
  rw [unfolded]
  cases count <;> simp [bracketed, countTokens, List.intercalate]

end Tokens

end TypeExpr

/-! ## Short names -/

namespace TypeName

/-- The generators that have short names. -/
def shortBases : List String := ["vec2", "vec3", "vec4"] ++ ["mat2x2", "mat2x3", "mat2x4", "mat3x2",
  "mat3x3", "mat3x4", "mat4x2", "mat4x3", "mat4x4"]

/-- A short name is the name of a vector or matrix generator and one of four letters. -/
theorem eq_of_splitShorthand? {name : String} {p : String × String} (h : splitShorthand? name = some p) :
    ∃ base ∈ shortBases, ∃ c ∈ ['f', 'h', 'i', 'u'], name = String.ofList (base.toList ++ [c]) := by
  rw [splitShorthand?] at h
  split at h
  · cases h
  rename_i last hlast
  have hname : name.toList = name.toList.dropLast ++ [last] :=
    (List.dropLast_append_getLast? last hlast).symm
  split at h
  · rename_i scalar hscalar
    dsimp only at h
    split at h
    · rename_i hbase
      refine ⟨String.ofList name.toList.dropLast, ?_, last, ?_, ?_⟩
      · rw [Bool.or_eq_true, Bool.and_eq_true] at hbase
        obtain hvec | ⟨hmat, -⟩ := hbase
        · exact List.mem_append_left _ (List.contains_iff_mem.mp hvec)
        · exact List.mem_append_right _ (List.contains_iff_mem.mp hmat)
      · unfold shorthandScalar? at hscalar
        split at hscalar <;> first | decide | cases hscalar
      · rw [String.toList_ofList, ← hname, String.ofList_toList]
    · cases h
  · cases h

/-- No generator has a short name. -/
theorem splitShorthand?_of_template {name : String} (h : isTemplateName name = true) :
    splitShorthand? name = none := by
  rw [Option.eq_none_iff_forall_ne_some]
  intro p hp
  obtain ⟨base, hbase, c, hc, rfl⟩ := eq_of_splitShorthand? hp
  have table : (shortBases.all fun base => ['f', 'h', 'i', 'u'].all fun c =>
      !isTemplateName (String.ofList (base.toList ++ [c]))) = true := by decide +kernel
  have hnot := List.all_eq_true.mp (List.all_eq_true.mp table base hbase) c hc
  rw [h] at hnot
  cases hnot

end TypeName

/-! ## Reading -/

namespace Parser

section Steps

variable {s : ParseState} {t : Token} {rest : List Token}

theorem head_of_rest (h : s.rest = t :: rest) : s.head = t := by
  rw [ParseState.head, h]
  rfl

theorem withRest_of_rest (h : s.rest = t :: rest) : s.withRest s.rest.tail = s.past rest s.nextId := by
  rw [h]
  rfl

theorem run_attributesOf_nil {expr : Parser Expr} (h : s.head.kind ≠ .atSign) (hb : 0 < s.budget) :
    (attributesOf expr).run s = .ok ([], s) := by
  obtain ⟨b, hb⟩ : ∃ b, s.budget = b + 1 := ⟨s.budget - 1, by omega⟩
  have hdone : ∀ step : List Attribute → Parser (Step (List Attribute)),
      (step []).run s = .ok (.done [], s) →
      (List.reverse <$> loop [] step).run s = .ok ([], s) := by
    intro step hstep
    rw [run_map, run_loop, hb, iterate_done hstep]
    rfl
  refine hdone _ ?_
  rw [run_check, decide_eq_false h]
  rfl

section TypeStep

variable {expr shift : Parser Expr} {type : Parser TypeExpr} {name : String} {rest' : List Token}
  {id : NodeId} (hs : s.rest = word name :: rest) (hb : 0 < s.budget)

include hs hb

theorem run_typeStep_named (harray : ¬(name = "array" ∨ name = "binding_array"))
    (hshort : TypeName.splitShorthand? name = none) (htemplate : isTemplateName name = false) :
    (typeStep expr shift type).run s = .ok (.named s.nextId [] name, s.past rest (s.nextId + 1)) := by
  have hhead := head_of_rest hs
  rw [typeStep, run_bind_of (run_attributesOf_nil (by rw [hhead]; exact fun h => nomatch h) hb), run_advance,
    withRest_of_rest hs, hhead, if_pos (show (word name).kind = .identifier from rfl)]
  show (if name = "array" ∨ name = "binding_array" then _ else _ : Parser TypeExpr).run _ = _
  rw [if_neg harray, show (word name).lexeme = name from rfl, hshort]
  show (if isTemplateName name = true then _ else _ : Parser TypeExpr).run _ = _
  rw [htemplate, if_neg Bool.false_ne_true]
  rfl

theorem run_typeStep_template {param : Option TypeExpr} {access space : Option String}
    (harray : ¬(name = "array" ∨ name = "binding_array")) (htemplate : isTemplateName name = true)
    (hparams : (templateParams name type).run (s.past rest s.nextId) =
      .ok ((param, access, space), s.past rest' id)) :
    (typeStep expr shift type).run s =
      .ok (.template id [] name param access space, s.past rest' (id + 1)) := by
  have hhead := head_of_rest hs
  rw [typeStep, run_bind_of (run_attributesOf_nil (by rw [hhead]; exact fun h => nomatch h) hb), run_advance,
    withRest_of_rest hs, hhead, if_pos (show (word name).kind = .identifier from rfl)]
  show (if name = "array" ∨ name = "binding_array" then _ else _ : Parser TypeExpr).run _ = _
  rw [if_neg harray, show (word name).lexeme = name from rfl, TypeName.splitShorthand?_of_template htemplate]
  show (if isTemplateName name = true then _ else _ : Parser TypeExpr).run _ = _
  rw [if_pos htemplate, run_bind_of hparams]
  rfl

theorem run_typeStep_array {element : Option TypeExpr} {count : Option UInt32} {countExpr : Option Expr}
    (hname : name = "array") (hcount : count = none → countExpr = none)
    (hparams : (arrayParams shift type).run (s.past rest s.nextId) =
      .ok ((element, count, countExpr), s.past rest' id)) :
    (typeStep expr shift type).run s =
      .ok (.array id [] element count countExpr, s.past rest' (id + 1)) := by
  have hhead := head_of_rest hs
  rw [typeStep, run_bind_of (run_attributesOf_nil (by rw [hhead]; exact fun h => nomatch h) hb), run_advance,
    withRest_of_rest hs, hhead, if_pos (show (word name).kind = .identifier from rfl)]
  show (if name = "array" ∨ name = "binding_array" then _ else _ : Parser TypeExpr).run _ = _
  rw [if_pos (.inl hname), run_bind_of hparams]
  cases count with
  | none =>
    rw [hcount rfl]
    rfl
  | some c => rfl

end TypeStep

/-! ### Parameters -/

theorem opening_kind : opening.kind = .lessThan := rfl

theorem closing_kind : closing.kind = .greaterThan := rfl

theorem comma_kind : comma.kind = .comma := rfl

theorem run_accept_eq {kind : TokenKind} {α : Type} {f : Bool → Parser α} (h : s.rest = t :: rest)
    (hk : t.kind = kind) : (accept kind >>= f).run s = (f true).run (s.past rest s.nextId) := by
  rw [run_accept, head_of_rest h, if_pos hk, withRest_of_rest h]

theorem run_accept_ne {kind : TokenKind} {α : Type} {f : Bool → Parser α} (h : s.head.kind ≠ kind) :
    (accept kind >>= f).run s = (f false).run s := by
  rw [run_accept, if_neg h]

theorem run_check_eq {kind : TokenKind} {α : Type} {f : Bool → Parser α} (h : s.head.kind ≠ kind) :
    (check kind >>= f).run s = (f false).run s := by
  rw [run_check, decide_eq_false h]

theorem run_expect_eq {kind : TokenKind} {purpose : String} {α : Type} {f : Token → Parser α}
    (h : s.rest = t :: rest) (hk : t.kind = kind) :
    (expect kind purpose >>= f).run s = (f t).run (s.past rest s.nextId) := by
  rw [run_expect, head_of_rest h, if_pos hk, withRest_of_rest h]

theorem run_identifier_eq {name : String} {α : Type} {f : String → Parser α} (h : s.rest = word name :: rest) :
    (identifier >>= f).run s = (f name).run (s.past rest s.nextId) := by
  rw [run_identifier, head_of_rest h, if_pos (show (word name).kind = .identifier from rfl), withRest_of_rest h]
  rfl

/-- The end of a list of parameters: maybe an access mode, and the bracket. -/
def accessTail (param : Option TypeExpr) (space : Option String) :
    Parser (Option TypeExpr × Option String × Option String) := do
  let access ← do
    if ← accept .comma then
      if ← check .greaterThan then pure none else pure (some (← identifier))
    else pure none
  let _ ← expect .greaterThan "to close template parameters"
  return (param, access, space)

theorem run_accessTail {param : Option TypeExpr} {space access : Option String}
    (h : s.rest = TypeExpr.accessTokens access ++ closing :: rest) :
    (accessTail param space).run s = .ok ((param, access, space), s.past rest s.nextId) := by
  rw [accessTail]
  cases access with
  | none =>
    have hclose : s.rest = closing :: rest := h
    rw [run_accept_ne (by rw [head_of_rest hclose]; exact fun h => nomatch h), if_neg Bool.false_ne_true,
      pure_bind, run_expect_eq hclose closing_kind]
    rfl
  | some a =>
    have hcomma : s.rest = comma :: word a :: closing :: rest := h
    have hname : (s.past (word a :: closing :: rest) s.nextId).rest = word a :: closing :: rest := rfl
    have hclose : (s.past (closing :: rest) s.nextId).rest = closing :: rest := rfl
    rw [run_accept_eq hcomma comma_kind, if_pos rfl,
      run_check_eq (by rw [head_of_rest hname]; exact fun h => nomatch h), if_neg Bool.false_ne_true,
      run_identifier_eq hname, pure_bind]
    show (expect .greaterThan _ >>= _).run (s.past (closing :: rest) s.nextId) = _
    rw [run_expect_eq hclose closing_kind]
    rfl

theorem run_templateParams_nil {name : String} {type : Parser TypeExpr} (h : s.head.kind ≠ .lessThan) :
    (templateParams name type).run s = .ok ((none, none, none), s) := by
  rw [templateParams, run_accept_ne h]
  rfl

theorem run_templateParams_applied {name : String} {type : Parser TypeExpr} {param : TypeExpr}
    {access : Option String} {id : NodeId} (hpointer : name ≠ "ptr")
    (hstorage : "texture_storage".toList.isPrefixOf name.toList = false) (h : s.rest = opening :: rest)
    {rest' : List Token} (hparam : type.run (s.past rest s.nextId) =
      .ok (param, s.past (TypeExpr.accessTokens access ++ closing :: rest') id)) :
    (templateParams name type).run s = .ok ((some param, access, none), s.past rest' id) := by
  rw [templateParams, run_accept_eq h opening_kind, if_pos rfl]
  show (if name = "ptr" then _ else _ : Parser _).run _ = _
  rw [if_neg hpointer, if_neg (by rw [hstorage]; exact Bool.false_ne_true), run_bind_of hparam]
  exact run_accessTail rfl

theorem run_templateParams_pointer {type : Parser TypeExpr} {param : TypeExpr} {access : Option String}
    {space : String} {id : NodeId} (h : s.rest = opening :: word space :: comma :: rest) {rest' : List Token}
    (hparam : type.run (s.past rest s.nextId) =
      .ok (param, s.past (TypeExpr.accessTokens access ++ closing :: rest') id)) :
    (templateParams "ptr" type).run s = .ok ((some param, access, some space), s.past rest' id) := by
  have hspace : (s.past (word space :: comma :: rest) s.nextId).rest = word space :: comma :: rest := rfl
  have hcomma : (s.past (comma :: rest) s.nextId).rest = comma :: rest := rfl
  rw [templateParams, run_accept_eq h opening_kind, if_pos rfl]
  show (identifier >>= _).run (s.past (word space :: comma :: rest) s.nextId) = _
  rw [run_identifier_eq hspace]
  show (expect .comma _ >>= _).run (s.past (comma :: rest) s.nextId) = _
  rw [run_expect_eq hcomma comma_kind]
  show (type >>= _).run (s.past rest s.nextId) = _
  rw [run_bind_of hparam]
  exact run_accessTail rfl

theorem run_templateParams_storage {name format : String} {type : Parser TypeExpr} {access : Option String}
    (hstorage : "texture_storage".toList.isPrefixOf name.toList = true)
    (h : s.rest = opening :: word format :: (TypeExpr.accessTokens access ++ closing :: rest)) :
    (templateParams name type).run s = .ok ((none, access, some format), s.past rest s.nextId) := by
  have hpointer : name ≠ "ptr" := by
    rintro rfl
    revert hstorage
    decide
  have hformat : (s.past (word format :: (TypeExpr.accessTokens access ++ closing :: rest)) s.nextId).rest =
      word format :: (TypeExpr.accessTokens access ++ closing :: rest) := rfl
  rw [templateParams, run_accept_eq h opening_kind, if_pos rfl]
  show (if name = "ptr" then _ else _ : Parser _).run _ = _
  rw [if_neg hpointer, if_pos hstorage, run_identifier_eq hformat]
  exact run_accessTail rfl

/-! ### Counts -/

/-- Levels of operators add nothing where no operator follows. -/
theorem run_binaryLevels_stop {levels : List (List (TokenKind × BinaryOp))} {operand : Parser Expr}
    {s' : ParseState} {e : Expr} (h : operand.run s = .ok (e, s')) (hb : 0 < s'.budget)
    (hnone : ∀ ops ∈ levels, ops.lookup s'.head.kind = none) :
    (binaryLevels levels operand).run s = .ok (e, s') := by
  induction levels with
  | nil => exact h
  | cons ops levels ih =>
    have hinner := ih fun ops hops => hnone ops (List.mem_cons_of_mem _ hops)
    obtain ⟨b, hb⟩ : ∃ b, s'.budget = b + 1 := ⟨s'.budget - 1, by omega⟩
    show (chain ops (binaryLevels levels operand)).run s = _
    rw [chain_eq, run_bind_of hinner, run_loop, hb]
    refine iterate_done ?_
    rw [chainStep, run_peekKind, hnone ops (List.mem_cons_self ..)]
    rfl

theorem literal?_numeral {n : Nat} (hn : n < 2 ^ 63) :
    (numeral n).literal? = some (.int (Int64.ofNat n) none) := by
  have hvalue : (Int64.ofNat n).toInt = n := Int64.toInt_ofNat_of_lt hn
  have htext : (Literal.int (Int64.ofNat n) none).text = toString n := by
    rw [Literal.text, hvalue]
    show toString n ++ "" = _
    rw [String.append_empty]
  have hread : Numeral.readInt? (Literal.int (Int64.ofNat n) none).text = _ :=
    Numeral.readInt?_text (by rw [hvalue]; exact hn) (by decide)
  rw [htext] at hread
  show (Numeral.readInt? (toString n)).map _ = _
  rw [hread]
  rfl

theorem run_numeral {n depth : Nat} (hn : n < 2 ^ 63) (h : s.rest = numeral n :: closing :: rest)
    (hb : 0 < s.budget) : (binaryLevels shiftLevels (unaryWithin (depth + 1))).run s =
      .ok (.literal ⟨s.nextId, 1⟩ (.int (Int64.ofNat n) none), s.past (closing :: rest) (s.nextId + 1)) := by
  obtain ⟨b, hb'⟩ : ∃ b, s.budget = b + 1 := ⟨s.budget - 1, by omega⟩
  refine run_binaryLevels_stop ?_ hb (by
    show ∀ ops ∈ shiftLevels, ops.lookup .greaterThan = none
    decide)
  show (unaryStep _ _ _).run s = _
  have hprimary : ∀ expr type, (primary expr type).run s = .ok (.literal ⟨s.nextId, 1⟩
      (.int (Int64.ofNat n) none), s.past (closing :: rest) (s.nextId + 1)) := by
    intro expr type
    rw [run_primary, head_of_rest h, literal?_numeral hn]
    show (advance >>= _).run s = _
    rw [run_advance, withRest_of_rest h]
    rfl
  rw [unaryStep, run_peekKind, head_of_rest h]
  show (primary _ _ >>= _).run s = _
  rw [run_bind_of (hprimary _ _), trailing_eq, run_loop]
  show (iterate _ s.budget _).run _ = _
  rw [hb']
  refine iterate_done ?_
  rw [run_trailingStep]
  rfl

theorem foldUInt32_literal {constants : Table Expr} {mark : Mark} (c : UInt32) :
    Expr.foldUInt32 constants (.literal mark (.int (Int64.ofNat c.toNat) none)) = .ok (some c) := by
  have hlt : c.toNat < UInt32.size := c.toNat_lt
  have hvalue : (Int64.ofNat c.toNat).toInt = c.toNat :=
    Int64.toInt_ofNat_of_lt (Nat.lt_trans hlt (by decide))
  have hconstant : (Constant.int (Int64.ofNat c.toNat)).toUInt32? = some c := by
    rw [Constant.toUInt32?, Constant.toInt64, hvalue, if_pos ⟨Int.natCast_nonneg _, by exact_mod_cast hlt⟩,
      Int.toNat_natCast]
    exact congrArg some (UInt32.ofNat_toNat)
  show Except.ok ((some (Constant.int (Int64.ofNat c.toNat))).bind Constant.toUInt32?) = _
  rw [Option.bind_some, hconstant]

theorem run_arrayParams {shift : Parser Expr} {type : Parser TypeExpr} {element : TypeExpr}
    {count : Option UInt32} {id : NodeId} {rest' : List Token} (h : s.rest = opening :: rest)
    (helement : type.run (s.past rest s.nextId) =
      .ok (element, s.past (TypeExpr.countTokens count ++ closing :: rest') id))
    (hshift : ∀ c ∈ count, shift.run (s.past (numeral c.toNat :: closing :: rest') id) =
      .ok (.literal ⟨id, 1⟩ (.int (Int64.ofNat c.toNat) none), s.past (closing :: rest') (id + 1))) :
    ∃ countExpr id', (count = none → countExpr = none) ∧ (arrayParams shift type).run s =
      .ok ((some element, count, countExpr), s.past rest' id') := by
  cases count with
  | none =>
    have hclose : (s.past (closing :: rest') id).rest = closing :: rest' := rfl
    refine ⟨none, id, fun _ => rfl, ?_⟩
    rw [arrayParams, run_accept_eq h opening_kind, if_pos rfl, run_bind_of helement]
    show (accept .comma >>= _).run (s.past (closing :: rest') id) = _
    rw [run_accept_ne (by rw [head_of_rest hclose]; exact fun h => nomatch h), if_neg Bool.false_ne_true,
      pure_bind]
    show (expect .greaterThan _ >>= _).run (s.past (closing :: rest') id) = _
    rw [run_expect_eq hclose closing_kind]
    rfl
  | some c =>
    have hcomma : (s.past (comma :: numeral c.toNat :: closing :: rest') id).rest =
      comma :: numeral c.toNat :: closing :: rest' := rfl
    have hcount : (s.past (numeral c.toNat :: closing :: rest') id).rest =
      numeral c.toNat :: closing :: rest' := rfl
    have hclose : (s.past (closing :: rest') (id + 1)).rest = closing :: rest' := rfl
    refine ⟨some (.literal ⟨id, 1⟩ (.int (Int64.ofNat c.toNat) none)), id + 1, (fun h => nomatch h), ?_⟩
    rw [arrayParams, run_accept_eq h opening_kind, if_pos rfl, run_bind_of helement]
    show (accept .comma >>= _).run (s.past (comma :: numeral c.toNat :: closing :: rest') id) = _
    rw [run_accept_eq hcomma comma_kind, if_pos rfl]
    show (check .greaterThan >>= _).run (s.past (numeral c.toNat :: closing :: rest') id) = _
    rw [run_check_eq (by rw [head_of_rest hcount]; exact fun h => nomatch h), if_neg Bool.false_ne_true,
      run_bind_of (hshift c rfl), run_get]
    have hfold : (liftM (Expr.foldUInt32 (s.past (closing :: rest') (id + 1)).context.constants
        (.literal ⟨id, 1⟩ (.int (Int64.ofNat c.toNat) none))) : Parser (Option UInt32)).run
        (s.past (closing :: rest') (id + 1)) = .ok (some c, s.past (closing :: rest') (id + 1)) := by
      rw [foldUInt32_literal]
      rfl
    rw [run_bind_of hfold, pure_bind]
    show (expect .greaterThan _ >>= _).run (s.past (closing :: rest') (id + 1)) = _
    rw [run_expect_eq hclose closing_kind]
    rfl

end Steps

end Parser

namespace TypeExpr

open Wgsl.Parser

theorem head_accessTokens (access : Option String) {last : Token} {rest : List Token} :
    ((accessTokens access ++ closing :: rest).headD last).kind ≠ .lessThan := by
  cases access <;> exact fun h => nomatch h

theorem head_countTokens (count : Option UInt32) {last : Token} {rest : List Token} :
    ((countTokens count ++ closing :: rest).headD last).kind ≠ .lessThan := by
  cases count <;> exact fun h => nomatch h

/-- The names of storage textures are generators. -/
theorem template_of_storage {name : String}
    (h : "texture_storage".toList.isPrefixOf name.toList = true) :
    isTemplateName name = true ∧ ¬(name = "array" ∨ name = "binding_array") := by
  constructor
  · have hprefix := List.isPrefixOf_iff_prefix.mp h
    have htexture : "texture_".toList.isPrefixOf name.toList = true :=
      List.isPrefixOf_iff_prefix.mpr (List.IsPrefix.trans ⟨"storage".toList, by decide⟩ hprefix)
    rw [isTemplateName, htexture, Bool.or_true]
  · rintro (rfl | rfl) <;> (revert h; decide)

/-- The tokens of a type are read as the type, by induction on its form. Each level of nesting takes
tokens, so their number bounds the depth. -/
theorem reads_tokens {t : TypeExpr} (h : t.Printable) : ∀ {depth : Nat} {s : ParseState} {rest : List Token},
    s.rest = t.tokens ++ rest → t.tokens.length ≤ depth → 0 < s.budget →
    (rest.headD s.last).kind ≠ .lessThan →
    ∃ t' id, (typeWithin depth).run s = .ok (t', s.past rest id) ∧ t'.skeleton = t.skeleton := by
  induction h with
  | @named _ name h htemplate hshort =>
    intro depth s rest hs hdepth hb _
    obtain ⟨depth, rfl⟩ : ∃ d, depth = d + 1 := ⟨depth - 1, by simp [tokens] at hdepth; omega⟩
    have harray : ¬(name = "array" ∨ name = "binding_array") := by
      rintro (rfl | rfl) <;> cases htemplate
    exact ⟨_, _, run_typeStep_named hs hb harray hshort htemplate, rfl⟩
  | generator h htemplate harray =>
    intro depth s rest hs hdepth hb hnext
    rw [tokens_generator, List.length_singleton] at hdepth
    obtain ⟨depth, rfl⟩ : ∃ d, depth = d + 1 := ⟨depth - 1, by omega⟩
    exact ⟨_, _, run_typeStep_template hs hb harray htemplate (run_templateParams_nil hnext), rfl⟩
  | @applied _ name param access h htemplate harray hpointer hstorage haccess hparam ih =>
    intro depth s rest hs hdepth hb _
    rw [tokens_applied] at hs hdepth
    simp only [List.cons_append, List.append_assoc, List.nil_append] at hs
    simp only [List.length_cons, List.length_append] at hdepth
    obtain ⟨depth, rfl⟩ : ∃ d, depth = d + 1 := ⟨depth - 1, by omega⟩
    obtain ⟨param', id, hrun, heq⟩ := @ih depth (s.past (param.tokens ++
      (accessTokens access ++ closing :: rest)) s.nextId) _ rfl (by omega) hb (head_accessTokens access)
    exact ⟨_, _, run_typeStep_template hs hb harray htemplate
      (run_templateParams_applied hpointer hstorage rfl hrun), by simp only [skeleton, skeletonParam, heq]⟩
  | @pointer _ param access space hspace haccess hparam ih =>
    intro depth s rest hs hdepth hb _
    rw [tokens_pointer] at hs hdepth
    simp only [List.cons_append, List.append_assoc, List.nil_append] at hs
    simp only [List.length_cons, List.length_append] at hdepth
    obtain ⟨depth, rfl⟩ : ∃ d, depth = d + 1 := ⟨depth - 1, by omega⟩
    obtain ⟨param', id, hrun, heq⟩ := @ih depth (s.past (param.tokens ++
      (accessTokens access ++ closing :: rest)) s.nextId) _ rfl (by omega) hb (head_accessTokens access)
    exact ⟨_, _, run_typeStep_template hs hb (by decide) (by decide) (run_templateParams_pointer rfl hrun),
      by simp only [skeleton, skeletonParam, heq]⟩
  | @storage _ name access format h hstorage hformat haccess =>
    intro depth s rest hs hdepth hb _
    rw [tokens_storage] at hs hdepth
    simp only [List.cons_append, List.append_assoc, List.nil_append] at hs
    simp only [List.length_cons, List.length_append] at hdepth
    obtain ⟨depth, rfl⟩ : ∃ d, depth = d + 1 := ⟨depth - 1, by omega⟩
    obtain ⟨htemplate, harray⟩ := template_of_storage hstorage
    exact ⟨_, _, run_typeStep_template hs hb harray htemplate (run_templateParams_storage hstorage rfl), rfl⟩
  | @array _ element count _ helement ih =>
    intro depth s rest hs hdepth hb _
    rw [tokens_array] at hs hdepth
    simp only [List.cons_append, List.append_assoc, List.nil_append] at hs
    simp only [List.length_cons, List.length_append] at hdepth
    obtain ⟨depth, rfl⟩ : ∃ d, depth = d + 2 := ⟨depth - 2, by omega⟩
    obtain ⟨element', id, hrun, heq⟩ := @ih (depth + 1) (s.past (element.tokens ++
      (countTokens count ++ closing :: rest)) s.nextId) _ rfl (by omega) hb (head_countTokens count)
    have hopen : (s.past (opening :: (element.tokens ++ (countTokens count ++ closing :: rest)))
      s.nextId).rest = opening :: (element.tokens ++ (countTokens count ++ closing :: rest)) := rfl
    obtain ⟨countExpr, id', hnone, hparams⟩ := run_arrayParams hopen hrun fun c _ =>
      run_numeral (Nat.lt_trans c.toNat_lt (by decide)) rfl hb
    exact ⟨_, _, run_typeStep_array hs hb rfl hnone hparams, by simp only [skeleton, skeletonParam, heq]⟩

end TypeExpr

end Wgsl
