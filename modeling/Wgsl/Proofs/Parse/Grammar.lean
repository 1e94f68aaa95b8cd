import Mathlib
import Wgsl.Parse.Expr

/-! # The grammar of expressions

What it means for a tree to be grouped as the precedence of operators asks, and for tokens to spell a
tree.

* `Expr.rank`: how tightly the outermost form of an expression binds.
* `Expr.Normal`: every operand binds at least as tightly as its place asks.
* `Expr.Spells`: the tokens are those of the tree from left to right. An argument list may have one
  more comma at its end.

Constructors and bit casts are left out: they take the name of a type.
-/

namespace Wgsl
set_option autoImplicit false

/-! ## Operators -/

/-- The level of a binary operator, from zero for the loosest to nine for the tightest. -/
def BinaryOp.level : BinaryOp → Nat
  | logicalOr => 0
  | logicalAnd => 1
  | bitOr => 2
  | bitXor => 3
  | bitAnd => 4
  | equal | notEqual => 5
  | less | lessEqual | greater | greaterEqual => 6
  | shiftLeft | shiftRight => 7
  | add | subtract => 8
  | multiply | divide | modulo => 9

/-- The token of a binary operator. -/
def BinaryOp.token : BinaryOp → TokenKind
  | add => .plus
  | subtract => .minus
  | multiply => .star
  | divide => .slash
  | modulo => .percent
  | equal => .equalEqual
  | notEqual => .notEqual
  | less => .lessThan
  | lessEqual => .lessThanEqual
  | greater => .greaterThan
  | greaterEqual => .greaterThanEqual
  | logicalAnd => .andAnd
  | logicalOr => .orOr
  | bitAnd => .and
  | bitOr => .or
  | bitXor => .xor
  | shiftLeft => .shiftLeft
  | shiftRight => .shiftRight

/-- The token of a unary operator. -/
def UnaryOp.token : UnaryOp → TokenKind
  | negate => .minus
  | not => .bang
  | complement => .tilde
  | addressOf => .and
  | deref => .star

theorem BinaryOp.token_injective {op op' : BinaryOp} (h : op.token = op'.token) : op = op' := by
  revert h
  cases op <;> cases op' <;> first | exact fun _ => rfl | exact fun h => nomatch h

namespace Parser

/-- The operators of one level. -/
def opsAt (k : Nat) : List (TokenKind × BinaryOp) := levels.getD k []

theorem drop_levels {k : Nat} (h : k < 10) : levels.drop k = opsAt k :: levels.drop (k + 1) := by
  rw [List.drop_eq_getElem_cons (show k < levels.length from h), opsAt,
    List.getD_eq_getElem _ _ (show k < levels.length from h)]

/-- The operators of a level are those that the table lists for it, under their tokens. -/
theorem lookup_opsAt {k : Nat} (hk : k < 10) {kind : TokenKind} {op : BinaryOp} :
    (opsAt k).lookup kind = some op ↔ op.level = k ∧ op.token = kind := by
  have table : ∀ k < 10, ∀ p ∈ opsAt k, p.2.level = k ∧ p.2.token = p.1 := by decide
  constructor
  · intro h
    obtain ⟨before, behind, hsplit, -⟩ := List.lookup_eq_some_iff.mp h
    exact table k hk (kind, op) (by rw [hsplit]; exact List.mem_append_right _ (List.mem_cons_self ..))
  · rintro ⟨rfl, rfl⟩
    cases op <;> rfl

theorem unaryOp?_eq_some {kind : TokenKind} {op : UnaryOp} (h : unaryOp? kind = some op) :
    op.token = kind := by
  unfold unaryOp? at h
  split at h <;> cases h <;> rfl

theorem unaryOp?_token (op : UnaryOp) : unaryOp? op.token = some op := by
  cases op <;> rfl

end Parser

/-! ## Precedence -/

namespace Expr

/-- How tightly the outermost form binds: binary operators by level, then unary operators, then
everything else. -/
def rank : Expr → Nat
  | .binary _ op _ _ => op.level
  | .unary .. => 10
  | _ => 11

theorem eq_binary {e : Expr} (h : e.rank < 10) : ∃ mark op lhs rhs, e = .binary mark op lhs rhs := by
  cases e with
  | binary mark op lhs rhs => exact ⟨mark, op, lhs, rhs, rfl⟩
  | unary => exact absurd h (show ¬10 < 10 by decide)
  | _ => exact absurd h (show ¬11 < 10 by decide)

theorem eq_unary {e : Expr} (h : e.rank = 10) : ∃ mark op operand, e = .unary mark op operand := by
  cases e with
  | binary mark op lhs rhs => exact absurd h (by rw [rank]; cases op <;> decide)
  | unary mark op operand => exact ⟨mark, op, operand, rfl⟩
  | _ => exact absurd h (show ¬11 = 10 by decide)

mutual

/-- In every binary expression the left operand binds at least as tightly as the operator and the
right operand more tightly; the operand of a unary operator is no binary expression; what is indexed
or asked for a member is neither. -/
def Normal : Expr → Prop
  | .literal .. => True
  | .var .. => True
  | .binary _ op lhs rhs =>
    op.level ≤ lhs.rank ∧ op.level < rhs.rank ∧ Normal lhs ∧ Normal rhs
  | .unary _ _ operand => 10 ≤ operand.rank ∧ Normal operand
  | .call _ _ args => AllNormal args
  | .construct _ _ args => AllNormal args
  | .bitcast _ _ value => Normal value
  | .index _ base i => 11 ≤ base.rank ∧ Normal base ∧ Normal i
  | .member _ base _ => 11 ≤ base.rank ∧ Normal base
  | .group _ inner => Normal inner

def AllNormal : List Expr → Prop
  | [] => True
  | e :: rest => Normal e ∧ AllNormal rest

end

theorem AllNormal.append {first second : List Expr} (h : AllNormal first) (h' : AllNormal second) :
    AllNormal (first ++ second) := by
  induction first with
  | nil => exact h'
  | cons e rest ih => exact ⟨h.1, ih h.2⟩

end Expr

/-! ## Spelling -/

namespace Token

/-- The value of a token that is a literal by itself. -/
def literal? (t : Token) : Option Literal :=
  match t.kind with
  | .intLiteral => (Numeral.readInt? t.lexeme).map fun (v, s) => .int v s
  | .floatLiteral => (Numeral.readFloat? t.lexeme).map fun (v, s) => .float v s
  | .kwTrue => some (.bool true)
  | .kwFalse => some (.bool false)
  | _ => none

/-- Whether a token is a certain name. -/
def IsName (t : Token) (name : String) : Prop := t.kind = .identifier ∧ t.lexeme = name

/-- A name that starts no type and no bit cast. -/
def IsPlain (t : Token) : Prop :=
  t.kind = .identifier → TypeName.isBuiltin t.lexeme = false ∧ t.lexeme ≠ "bitcast"

end Token

namespace Expr

mutual

/-- The tokens are those of the expression from left to right. -/
def Spells : Expr → List Token → Prop
  | .literal _ value, ts => ∃ t, ts = [t] ∧ t.literal? = some value
  | .var _ name, ts => ∃ t, ts = [t] ∧ t.IsName name
  | .binary _ op lhs rhs, ts => ∃ before t behind, ts = before ++ t :: behind ∧ t.kind = op.token ∧
    Spells lhs before ∧ Spells rhs behind
  | .unary _ op operand, ts => ∃ t behind, ts = t :: behind ∧ t.kind = op.token ∧
    Spells operand behind
  | .call _ name args, ts => ∃ t opening inside closing, ts = t :: opening :: (inside ++ [closing]) ∧
    t.IsName name ∧ opening.kind = .parenLeft ∧ closing.kind = .parenRight ∧ SpellArgs args inside
  | .index _ base i, ts => ∃ before opening inside closing,
    ts = before ++ opening :: (inside ++ [closing]) ∧ opening.kind = .bracketLeft ∧
      closing.kind = .bracketRight ∧ Spells base before ∧ Spells i inside
  | .member _ base name, ts => ∃ before point t, ts = before ++ [point, t] ∧ point.kind = .period ∧
    t.IsName name ∧ Spells base before
  | .group _ inner, ts => ∃ opening inside closing, ts = opening :: (inside ++ [closing]) ∧
    opening.kind = .parenLeft ∧ closing.kind = .parenRight ∧ Spells inner inside
  | .construct .., _ => False
  | .bitcast .., _ => False

/-- The tokens are those of the arguments with commas between them, and maybe one behind the last. -/
def SpellArgs : List Expr → List Token → Prop
  | [], ts => ts = []
  | e :: rest, ts => ∃ first, Spells e first ∧ ((rest = [] ∧ ts = first) ∨
    ∃ comma more, ts = first ++ comma :: more ∧ comma.kind = .comma ∧ SpellArgs rest more)

end

end Expr

namespace TokenKind

/-- The kinds that a literal, a name or a parenthesis has. -/
def startsPrimary : TokenKind → Bool
  | intLiteral | floatLiteral | kwTrue | kwFalse | identifier | parenLeft => true
  | _ => false

/-- The kinds that an expression starts with. -/
def startsOperand (kind : TokenKind) : Bool :=
  kind.startsPrimary || (Parser.unaryOp? kind).isSome

end TokenKind

theorem Token.startsPrimary_of_literal? {t : Token} {value : Literal} (h : t.literal? = some value) :
    t.kind.startsPrimary = true := by
  unfold Token.literal? at h
  split at h <;> first | (rename_i hk; rw [hk]; rfl) | cases h

namespace Expr

/-- An expression starts with an operand; one that is neither binary nor unary starts with a literal,
a name or a parenthesis. -/
theorem Spells.head : ∀ {e : Expr} {ts : List Token}, e.Spells ts → e.Normal →
    ∃ t behind, ts = t :: behind ∧ t.kind.startsOperand = true ∧
      (11 ≤ e.rank → t.kind.startsPrimary = true)
  | .literal .., _, ⟨t, hts, ht⟩, _ =>
    have hp := Token.startsPrimary_of_literal? ht
    ⟨t, [], hts, by rw [TokenKind.startsOperand, hp]; rfl, fun _ => hp⟩
  | .var .., _, ⟨t, hts, ht⟩, _ => ⟨t, [], hts, by rw [ht.1]; rfl, fun _ => by rw [ht.1]; rfl⟩
  | .binary _ op lhs rhs, _, ⟨before, _, _, hts, _, hl, _⟩, ⟨_, _, hn, _⟩ => by
    obtain ⟨t, behind, rfl, ht, -⟩ := hl.head hn
    refine ⟨t, _, hts, ht, fun h => ?_⟩
    exact absurd h (by rw [rank]; cases op <;> decide)
  | .unary _ op operand, _, ⟨t, behind, hts, ht, _⟩, _ =>
    ⟨t, behind, hts, by rw [TokenKind.startsOperand, ht, Parser.unaryOp?_token, Bool.or_comm]; rfl,
      fun h => absurd h (show ¬11 ≤ 10 by decide)⟩
  | .call .., _, ⟨t, _, _, _, hts, ht, _⟩, _ =>
    ⟨t, _, hts, by rw [ht.1]; rfl, fun _ => by rw [ht.1]; rfl⟩
  | .index _ base _, _, ⟨_, _, _, _, hts, _, _, hb, _⟩, ⟨hr, hn, _⟩ => by
    obtain ⟨t, behind, rfl, ht, hp⟩ := hb.head hn
    exact ⟨t, _, hts, ht, fun _ => hp hr⟩
  | .member _ base _, _, ⟨_, _, _, hts, _, _, hb⟩, ⟨hr, hn⟩ => by
    obtain ⟨t, behind, rfl, ht, hp⟩ := hb.head hn
    exact ⟨t, _, hts, ht, fun _ => hp hr⟩
  | .group .., _, ⟨t, _, _, hts, ht, _⟩, _ =>
    ⟨t, _, hts, by rw [ht]; rfl, fun _ => by rw [ht]; rfl⟩

end Expr

end Wgsl
