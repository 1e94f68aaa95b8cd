/-! # Tokens

The tokens of a shader: their kinds, the spelling of keywords and operators, and the names that open
a template parameter list.

Kinds come in four groups: keywords, names and numbers, punctuation, and the end mark.
-/

namespace Wgsl
set_option autoImplicit false

/-- The kind of a token. -/
inductive TokenKind where
  | kwAlias
  | kwBreak
  | kwCase
  | kwConst
  | kwConstAssert
  | kwContinue
  | kwContinuing
  | kwDefault
  | kwDiagnostic
  | kwDiscard
  | kwElse
  | kwEnable
  | kwFalse
  | kwFn
  | kwFor
  | kwIf
  | kwLet
  | kwLoop
  | kwOverride
  | kwRequires
  | kwReturn
  | kwStruct
  | kwSwitch
  | kwTrue
  | kwVar
  | kwWhile
  | identifier
  | intLiteral
  | floatLiteral
  | and
  | andAnd
  | arrow
  | atSign
  | slash
  | bang
  | bracketLeft
  | bracketRight
  | braceLeft
  | braceRight
  | colon
  | comma
  | equal
  | equalEqual
  | notEqual
  | greaterThan
  | greaterThanEqual
  | shiftRight
  | lessThan
  | lessThanEqual
  | shiftLeft
  | percent
  | minus
  | minusMinus
  | period
  | plus
  | plusPlus
  | or
  | orOr
  | parenLeft
  | parenRight
  | semicolon
  | star
  | tilde
  | underscore
  | xor
  | plusEqual
  | minusEqual
  | timesEqual
  | divisionEqual
  | moduloEqual
  | andEqual
  | orEqual
  | xorEqual
  | shiftRightEqual
  | shiftLeftEqual
  | eof
  deriving DecidableEq, Repr, Inhabited

namespace TokenKind

/-- The name of a kind, as messages show it. -/
def name : TokenKind → String
  | kwAlias => "Alias"
  | kwBreak => "Break"
  | kwCase => "Case"
  | kwConst => "Const"
  | kwConstAssert => "ConstAssert"
  | kwContinue => "Continue"
  | kwContinuing => "Continuing"
  | kwDefault => "Default"
  | kwDiagnostic => "Diagnostic"
  | kwDiscard => "Discard"
  | kwElse => "Else"
  | kwEnable => "Enable"
  | kwFalse => "False"
  | kwFn => "Fn"
  | kwFor => "For"
  | kwIf => "If"
  | kwLet => "Let"
  | kwLoop => "Loop"
  | kwOverride => "Override"
  | kwRequires => "Requires"
  | kwReturn => "Return"
  | kwStruct => "Struct"
  | kwSwitch => "Switch"
  | kwTrue => "True"
  | kwVar => "Var"
  | kwWhile => "While"
  | identifier => "Identifier"
  | intLiteral => "IntLiteral"
  | floatLiteral => "FloatLiteral"
  | and => "And"
  | andAnd => "AndAnd"
  | arrow => "Arrow"
  | atSign => "At"
  | slash => "Slash"
  | bang => "Bang"
  | bracketLeft => "BracketLeft"
  | bracketRight => "BracketRight"
  | braceLeft => "BraceLeft"
  | braceRight => "BraceRight"
  | colon => "Colon"
  | comma => "Comma"
  | equal => "Equal"
  | equalEqual => "EqualEqual"
  | notEqual => "NotEqual"
  | greaterThan => "GreaterThan"
  | greaterThanEqual => "GreaterThanEqual"
  | shiftRight => "ShiftRight"
  | lessThan => "LessThan"
  | lessThanEqual => "LessThanEqual"
  | shiftLeft => "ShiftLeft"
  | percent => "Percent"
  | minus => "Minus"
  | minusMinus => "MinusMinus"
  | period => "Period"
  | plus => "Plus"
  | plusPlus => "PlusPlus"
  | or => "Or"
  | orOr => "OrOr"
  | parenLeft => "ParenLeft"
  | parenRight => "ParenRight"
  | semicolon => "Semicolon"
  | star => "Star"
  | tilde => "Tilde"
  | underscore => "Underscore"
  | xor => "Xor"
  | plusEqual => "PlusEqual"
  | minusEqual => "MinusEqual"
  | timesEqual => "TimesEqual"
  | divisionEqual => "DivisionEqual"
  | moduloEqual => "ModuloEqual"
  | andEqual => "AndEqual"
  | orEqual => "OrEqual"
  | xorEqual => "XorEqual"
  | shiftRightEqual => "ShiftRightEqual"
  | shiftLeftEqual => "ShiftLeftEqual"
  | eof => "Eof"

/-- The operators that assign: plain and compound. -/
def isAssignment : TokenKind → Bool
  | equal | plusEqual | minusEqual | timesEqual | divisionEqual | moduloEqual | andEqual | orEqual
  | xorEqual | shiftRightEqual | shiftLeftEqual => true
  | _ => false

/-- Kinds after which a `-` can only be a binary minus. -/
def endsOperand : TokenKind → Bool
  | identifier | intLiteral | floatLiteral | kwTrue | kwFalse | parenRight | bracketRight => true
  | _ => false

end TokenKind

/-- A token: its kind, the characters it was read from, and the line it starts on. -/
structure Token where
  kind : TokenKind
  lexeme : String
  line : Nat
  deriving DecidableEq, Repr, Inhabited

namespace Token

/-- The reserved words. -/
def keywords : List (String × TokenKind) := [
  ("alias", .kwAlias),
  ("break", .kwBreak),
  ("case", .kwCase),
  ("const", .kwConst),
  ("const_assert", .kwConstAssert),
  ("continue", .kwContinue),
  ("continuing", .kwContinuing),
  ("default", .kwDefault),
  ("diagnostic", .kwDiagnostic),
  ("discard", .kwDiscard),
  ("else", .kwElse),
  ("enable", .kwEnable),
  ("false", .kwFalse),
  ("fn", .kwFn),
  ("for", .kwFor),
  ("if", .kwIf),
  ("let", .kwLet),
  ("loop", .kwLoop),
  ("override", .kwOverride),
  ("requires", .kwRequires),
  ("return", .kwReturn),
  ("struct", .kwStruct),
  ("switch", .kwSwitch),
  ("true", .kwTrue),
  ("var", .kwVar),
  ("while", .kwWhile)]

/-- The kind of a word: a lone underscore, a reserved word, or an identifier. -/
def wordKind (word : String) : TokenKind :=
  if word = "_" then .underscore else (keywords.lookup word).getD .identifier

/-- The operators, longer ones first, so that none hides behind its own beginning. -/
def operators : List (List Char × TokenKind) := [
  (['>', '>', '='], .shiftRightEqual),
  (['<', '<', '='], .shiftLeftEqual),
  (['-', '>'], .arrow),
  (['&', '&'], .andAnd),
  (['|', '|'], .orOr),
  (['=', '='], .equalEqual),
  (['!', '='], .notEqual),
  (['>', '='], .greaterThanEqual),
  (['<', '='], .lessThanEqual),
  (['>', '>'], .shiftRight),
  (['<', '<'], .shiftLeft),
  (['+', '+'], .plusPlus),
  (['-', '-'], .minusMinus),
  (['+', '='], .plusEqual),
  (['-', '='], .minusEqual),
  (['*', '='], .timesEqual),
  (['/', '='], .divisionEqual),
  (['%', '='], .moduloEqual),
  (['&', '='], .andEqual),
  (['|', '='], .orEqual),
  (['^', '='], .xorEqual),
  (['&'], .and),
  (['@'], .atSign),
  (['/'], .slash),
  (['!'], .bang),
  (['['], .bracketLeft),
  ([']'], .bracketRight),
  (['\x7b'], .braceLeft),
  (['\x7d'], .braceRight),
  ([':'], .colon),
  ([','], .comma),
  (['='], .equal),
  (['>'], .greaterThan),
  (['<'], .lessThan),
  (['%'], .percent),
  (['-'], .minus),
  (['.'], .period),
  (['+'], .plus),
  (['|'], .or),
  (['('], .parenLeft),
  ([')'], .parenRight),
  ([';'], .semicolon),
  (['*'], .star),
  (['~'], .tilde),
  (['^'], .xor)]

/-- The type generators that take parameters. -/
def templateNames : List String :=
  ["array", "atomic", "ptr", "binding_array", "vec2", "vec3", "vec4", "mat2x2", "mat2x3", "mat2x4",
    "mat3x2", "mat3x3", "mat3x4", "mat4x2", "mat4x3", "mat4x4"]

/-- Whether a `<` after this name opens a template parameter list. -/
def isTemplateName (name : String) : Bool :=
  templateNames.contains name || "texture_".toList.isPrefixOf name.toList

end Token

end Wgsl
