import Wgsl.Parse.Cursor
import Wgsl.Parse.Literal

/-! # Parsing expressions and types

Ten levels of binary operators stand above unary operators, and those above indexing, member access
and the primary forms. Expressions hold types (constructors) and types hold expressions (array
counts), so the unary level and the types are defined together, by recursion on a bound on nesting.
Every two levels of nesting take a token, so twice the number of tokens bounds them.
-/

namespace Wgsl
set_option autoImplicit false

/-! ## Names of types -/

namespace TypeName

/-- The plain scalar types. -/
def isScalar (name : String) : Bool := ["bool", "i32", "u32", "f32", "f16"].contains name

/-- The scalar that ends a short type name. -/
def shorthandScalar? : Char → Option String
  | 'f' => some "f32"
  | 'h' => some "f16"
  | 'i' => some "i32"
  | 'u' => some "u32"
  | _ => none

/-- The generator and scalar of a short name such as `vec3f` or `mat4x4h`; matrices are of floats
only. -/
def splitShorthand? (name : String) : Option (String × String) :=
  match name.toList.getLast? with
  | none => none
  | some last =>
    let base := String.ofList name.toList.dropLast
    let isVec := ["vec2", "vec3", "vec4"].contains base
    let isMat := ["mat2x2", "mat2x3", "mat2x4", "mat3x2", "mat3x3", "mat3x4", "mat4x2", "mat4x3",
      "mat4x4"].contains base
    match shorthandScalar? last with
    | some scalar =>
      if isVec || (isMat && (last == 'f' || last == 'h')) then some (base, scalar) else none
    | none => none

/-- Names that start a type wherever an expression may stand. -/
def isBuiltin (name : String) : Bool :=
  isScalar name || Token.isTemplateName name || (splitShorthand? name).isSome

end TypeName

namespace Parser

/-! ## Binary operators -/

/-- The binary operators by level, loosest first. -/
def levels : List (List (TokenKind × BinaryOp)) := [
  [(.orOr, .logicalOr)],
  [(.andAnd, .logicalAnd)],
  [(.or, .bitOr)],
  [(.xor, .bitXor)],
  [(.and, .bitAnd)],
  [(.equalEqual, .equal), (.notEqual, .notEqual)],
  [(.lessThan, .less), (.lessThanEqual, .lessEqual), (.greaterThan, .greater),
    (.greaterThanEqual, .greaterEqual)],
  [(.shiftLeft, .shiftLeft), (.shiftRight, .shiftRight)],
  [(.plus, .add), (.minus, .subtract)],
  [(.star, .multiply), (.slash, .divide), (.percent, .modulo)]]

/-- The levels from shifts down, where a `>` is no operator. -/
def shiftLevels : List (List (TokenKind × BinaryOp)) := levels.drop 7

/-- Operands joined by operators of one level, grouped to the left. -/
def chain (ops : List (TokenKind × BinaryOp)) (operand : Parser Expr) : Parser Expr := do
  loop (← operand) fun left => do
    match ops.lookup (← peekKind) with
    | none => return .done left
    | some op =>
      let _ ← advance
      let right ← operand
      return .next (.binary (← freshMark left.line) op left right)

/-- Operators of the given levels, loosest first, over operands. -/
def binaryLevels (ls : List (List (TokenKind × BinaryOp))) (operand : Parser Expr) : Parser Expr :=
  ls.foldr chain operand

/-! ## Forms over a given expression parser -/

/-- Arguments in parentheses. -/
def arguments (expr : Parser Expr) : Parser (List Expr) := do
  let _ ← expect .parenLeft "to open argument list"
  let args ← commaList .parenRight expr
  let _ ← expect .parenRight "to close argument list"
  return args

/-- Attributes, as many as stand here. Two reserved words are attribute names too. -/
def attributesOf (expr : Parser Expr) : Parser (List Attribute) :=
  List.reverse <$> loop [] fun found => do
    unless ← check .atSign do return .done found
    let line := (← advance).line
    let nameToken ← advance
    unless [TokenKind.identifier, .kwConst, .kwDiagnostic].contains nameToken.kind do
      failAt nameToken .expectedAttributeName
    let args ← do
      if ← accept .parenLeft then
        let args ← commaList .parenRight expr
        let _ ← expect .parenRight "to close attribute arguments"
        pure args
      else pure []
    return .next (.mk nameToken.lexeme args line :: found)

/-- Indexing and member access behind an expression. -/
def trailing (expr : Parser Expr) (base : Expr) : Parser Expr :=
  loop base fun base => do
    if ← accept .bracketLeft then
      let index ← expr
      let _ ← expect .bracketRight "to close index"
      return .next (.index (← freshMark base.line) base index)
    else if ← accept .period then
      let name ← identifier
      return .next (.member (← freshMark base.line) base name)
    else return .done base

/-- The operator that a token is in front of an operand. -/
def unaryOp? : TokenKind → Option UnaryOp
  | .minus => some .negate
  | .bang => some .not
  | .tilde => some .complement
  | .star => some .deref
  | .and => some .addressOf
  | _ => none

/-- A name: a bit cast, a constructor, a call or a variable. -/
def named (expr : Parser Expr) (type : Parser TypeExpr) : Parser Expr := do
  let token ← peek
  let name := token.lexeme
  let next := (← peekSecond).kind
  if name = "bitcast" then
    let _ ← advance
    let _ ← expect .lessThan "after bitcast"
    let ty ← type
    let _ ← expect .greaterThan "to close bitcast type"
    let _ ← expect .parenLeft "to open bitcast argument"
    let value ← expr
    let _ ← accept .comma
    let _ ← expect .parenRight "to close bitcast argument"
    return .bitcast (← freshMark token.line) ty value
  else
    let isType := TypeName.isBuiltin name || (← get).context.isTypeName name
    let opensTemplate := next = .lessThan && Token.isTemplateName name
    if isType && (next = .parenLeft || opensTemplate) then
      let ty ← type
      let args ← arguments expr
      return .construct (← freshMark token.line) ty args
    else
      let _ ← advance
      if next = .parenLeft then
        let args ← arguments expr
        return .call (← freshMark token.line) name args
      else return .var (← freshMark token.line) name

/-- Literals, parentheses and names. -/
def primary (expr : Parser Expr) (type : Parser TypeExpr) : Parser Expr := do
  let token ← peek
  let literal (value? : Option Literal) (cause : ParseCause) : Parser Expr := do
    let _ ← advance
    match value? with
    | some value => return .literal (← freshMark token.line) value
    | none => failAt token cause
  match token.kind with
  | .intLiteral =>
    literal ((Numeral.readInt? token.lexeme).map fun (v, s) => .int v s) .invalidInteger
  | .floatLiteral =>
    literal ((Numeral.readFloat? token.lexeme).map fun (v, s) => .float v s) .invalidFloat
  | .kwTrue => literal (some (.bool true)) .expectedExpression
  | .kwFalse => literal (some (.bool false)) .expectedExpression
  | .parenLeft =>
    let _ ← advance
    let inner ← expr
    let _ ← expect .parenRight "to close parenthesized expression"
    return .group (← freshMark token.line) inner
  | .identifier => named expr type
  | _ => failAt token .expectedExpression

/-- A unary operator over `operand`, or a primary form with what trails it. -/
def unaryStep (operand expr : Parser Expr) (type : Parser TypeExpr) : Parser Expr := do
  match unaryOp? (← peekKind) with
  | some op =>
    let line := (← advance).line
    let inner ← operand
    return .unary (← freshMark line) op inner
  | none => trailing expr (← primary expr type)

/-! ## Types over given parsers -/

/-- The parameters of an array: an element type and maybe a count, folded with what is declared so
far. -/
def arrayParams (shift : Parser Expr) (type : Parser TypeExpr) :
    Parser (Option TypeExpr × Option UInt32 × Option Expr) := do
  unless ← accept .lessThan do return (none, none, none)
  let element ← type
  let (count, countExpr) ← do
    if (← accept .comma) then
      if ← check .greaterThan then pure (none, none)
      else
        let e ← shift
        pure (← Expr.foldUInt32 (← get).context.constants e, some e)
    else pure (none, none)
  let _ ← expect .greaterThan "to close array type"
  return (some element, count, countExpr)

/-- The parameters of another generator: parameter type, access and space. -/
def templateParams (name : String) (type : Parser TypeExpr) :
    Parser (Option TypeExpr × Option String × Option String) := do
  unless ← accept .lessThan do return (none, none, none)
  let (param, space) ← do
    if name = "ptr" then
      let space ← identifier
      let _ ← expect .comma "after pointer address space"
      pure (some (← type), some space)
    else if "texture_storage".toList.isPrefixOf name.toList then pure (none, some (← identifier))
    else pure (some (← type), none)
  let access ← do
    if ← accept .comma then
      if ← check .greaterThan then pure none else pure (some (← identifier))
    else pure none
  let _ ← expect .greaterThan "to close template parameters"
  return (param, access, space)

/-- A type: attributes, a name and its parameters. -/
def typeStep (expr shift : Parser Expr) (type : Parser TypeExpr) : Parser TypeExpr := do
  let attributes ← attributesOf expr
  let token ← advance
  unless token.kind = .identifier do failAt token .expectedTypeName
  let name := token.lexeme
  if name = "array" ∨ name = "binding_array" then
    let (element, count, countExpr) ← arrayParams shift type
    let id ← fresh
    if let (none, some e) := (count, countExpr) then
      modifyContext fun c => { c with deferred := c.deferred ++ [(id, e)] }
    return .array id attributes element count countExpr
  else
    match TypeName.splitShorthand? name with
    | some (base, scalar) =>
      let param : TypeExpr := .named (← fresh) [] scalar
      return .template (← fresh) attributes base (some param) none none
    | none =>
      if Token.isTemplateName name then
        let (param, access, space) ← templateParams name type
        return .template (← fresh) attributes name param access space
      else return .named (← fresh) attributes name

/-! ## The knot -/

mutual

/-- A unary expression, at most `depth` levels of nesting deep. -/
def unaryWithin : Nat → Parser Expr
  | 0 => failHere .nestedTooDeep
  | depth + 1 => fun s =>
    unaryStep (unaryWithin depth) (binaryLevels levels (unaryWithin depth)) (typeWithin depth) s

/-- A type, at most `depth` levels of nesting deep. -/
def typeWithin : Nat → Parser TypeExpr
  | 0 => failHere .nestedTooDeep
  | depth + 1 => fun s =>
    typeStep (binaryLevels levels (unaryWithin depth)) (binaryLevels shiftLevels (unaryWithin depth))
      (typeWithin depth) s

end

/-- A bound on the nesting of what is ahead. -/
def depthAhead : Parser Nat := return 2 * (← get).budget

/-- A unary expression. -/
def unary : Parser Expr := do unaryWithin (← depthAhead)

/-- An expression. -/
def expression : Parser Expr := do binaryLevels levels (unaryWithin (← depthAhead))

/-- A type. -/
def typeExpr : Parser TypeExpr := do typeWithin (← depthAhead)

/-- Attributes. -/
def attributes : Parser (List Attribute) := attributesOf expression

/-- An expression with nothing behind it. -/
def standaloneExpression : Parser Expr := do
  let e ← expression
  unless ← atEnd do failHere .trailingToken
  return e

end Parser

/-- The expression that a list of tokens spells. -/
def Expr.ofTokens (tokens : List Token) : Except Fault Expr :=
  (Parser.standaloneExpression.run (.ofTokens tokens)).map Prod.fst

end Wgsl
