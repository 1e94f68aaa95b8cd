import Wgsl.Token

/-! # Failures

Two families of failures.

* A `RunError` is raised while a shader runs. It is reported and the run goes on with the next
  statement. Value operations raise it without a line (line `0`), and the statement or expression
  that called them supplies one.
* A `Fault` stops the whole request: text that cannot be scanned or parsed, a dispatch that cannot
  start, a type whose layout does not fit, or a constant `clamp` over an empty range.

The wording of each family stands in one `message` function.
-/

namespace Wgsl
set_option autoImplicit false

/-! ## Errors of a running shader -/

/-- What went wrong at one point of a run. -/
inductive RunCause where
  | unknownIdentifier (name : String)
  | unknownFunction (name : String)
  | typeMismatch (message : String)
  | arity (name : String) (expected found : Nat)
  | invalidSwizzle (swizzle : String)
  | indexOutOfBounds (index : Int) (length : Nat)
  | unsupported (name : String)
  | vectorLength (left right : Nat)
  | other (message : String)
  deriving DecidableEq, Repr, Inhabited

/-- An error of a running shader with the line it is reported for; line `0` is not yet known. -/
structure RunError where
  cause : RunCause
  line : Nat
  deriving DecidableEq, Repr, Inhabited

namespace RunCause

/-- The wording of a cause, without its line. -/
def message : RunCause → String
  | unknownIdentifier name => "unknown identifier '" ++ name ++ "'"
  | unknownFunction name => "unknown function '" ++ name ++ "'"
  | typeMismatch text => "type mismatch: " ++ text
  | arity name expected found =>
    "'" ++ name ++ "' expects " ++ toString expected ++ " argument(s), got " ++ toString found
  | invalidSwizzle swizzle => "invalid swizzle '" ++ swizzle ++ "'"
  | indexOutOfBounds index length =>
    "index " ++ toString index ++ " out of bounds for length " ++ toString length
  | unsupported name => "'" ++ name ++ "' is not supported"
  | vectorLength left right =>
    "vector length mismatch (" ++ toString left ++ " vs " ++ toString right ++ ")"
  | other text => text

/-- The error with no line yet. -/
def unplaced (cause : RunCause) : RunError := ⟨cause, 0⟩

end RunCause

namespace RunError

/-- An operand of the wrong type. -/
def mismatch (text : String) : RunError := ⟨.typeMismatch text, 0⟩

/-- Any other failure. -/
def other (text : String) : RunError := ⟨.other text, 0⟩

/-- Attaches a line to an error that has none. -/
def at_ (e : RunError) (line : Nat) : RunError := if e.line = 0 then { e with line } else e

/-- The text of a reported error. -/
def message (e : RunError) : String := "line " ++ toString e.line ++ ": " ++ e.cause.message

end RunError

/-- The result of an operation that may raise an error of the running shader. -/
abbrev Run (α : Type) := Except RunError α

namespace Run

variable {α : Type}

/-- The values of `f` at `count` numbers from `start` on, put behind those found already, the latest
of which comes first. -/
def valuesFrom (f : Nat → Run α) : (count start : Nat) → (found : List α) → Run (List α)
  | 0, _, found => pure found.reverse
  | count + 1, start, found => do
    let a ← f start
    valuesFrom f count (start + 1) (a :: found)

/-- The values of `f` at all numbers below `count`. The first error ends it, so a great count does no
harm where the values soon run out. -/
def values (count : Nat) (f : Nat → Run α) : Run (List α) := valuesFrom f count 0 []

theorem valuesFrom_eq (f : Nat → Run α) (count start : Nat) (found : List α) :
    valuesFrom f count start found =
      (fun later => found.reverse ++ later) <$> (List.range' start count).mapM f := by
  induction count generalizing start found with
  | zero => simp [valuesFrom]
  | succ count ih =>
    rw [valuesFrom, List.range'_succ, List.mapM_cons]
    cases h : f start with
    | error e => rfl
    | ok a =>
      show valuesFrom f count (start + 1) (a :: found) = _
      rw [ih]
      cases h' : (List.range' (start + 1) count).mapM f with
      | error e => rfl
      | ok later => simp [bind, Except.bind, pure, Except.pure, Functor.map, Except.map]

/-- The values are those of the whole range, taken in order. -/
theorem values_eq_mapM (count : Nat) (f : Nat → Run α) :
    values count f = (List.range count).mapM f := by
  rw [values, valuesFrom_eq, List.range_eq_range']
  cases (List.range' 0 count).mapM f <;> rfl

end Run

/-! ## Failures of a request -/

/-- Why a text is not a sequence of tokens. -/
inductive LexicalCause where
  | unexpectedCharacter (c : Char)
  | unterminatedComment
  deriving DecidableEq, Repr

namespace LexicalCause

def message (line : Nat) : LexicalCause → String
  | unexpectedCharacter c =>
    "invalid syntax at line " ++ toString line ++ ": unexpected character '" ++ c.toString ++ "'"
  | unterminatedComment =>
    "invalid syntax at line " ++ toString line ++ ": unterminated block comment"

end LexicalCause

/-- Why a sequence of tokens is not a program or an expression. -/
inductive ParseCause where
  | expectedToken (kind : TokenKind) (purpose : String) (found : TokenKind)
  | expectedIdentifier
  | expectedExpression
  | expectedTypeName
  | expectedAttributeName
  | expectedDeclaration
  | expectedSimpleStatement
  | invalidInteger
  | invalidFloat
  | trailingToken
  | nestedTooDeep
  deriving DecidableEq, Repr

namespace ParseCause

def message : ParseCause → String
  | expectedToken kind purpose found =>
    "Expected " ++ kind.name ++ " " ++ purpose ++ ", got " ++ found.name
  | expectedIdentifier => "Expected identifier"
  | expectedExpression => "Expected expression"
  | expectedTypeName => "Expected type name"
  | expectedAttributeName => "Expected attribute name"
  | expectedDeclaration => "Expected a global declaration"
  | expectedSimpleStatement => "Expected assignment, increment or call statement"
  | invalidInteger => "Invalid integer literal"
  | invalidFloat => "Invalid float literal"
  | trailingToken => "Unexpected token after expression"
  | nestedTooDeep => "Nested too deep"

end ParseCause

/-- Why a dispatch or a debugging session cannot start or go on. -/
inductive DispatchCause where
  | entryNotFound (entry : String)
  | noWorkgroupSize (function : String)
  | badWorkgroupSize (reason : RunError)
  | zeroWorkgroupSize (entry : String)
  | noStatementReached (commands : Nat)
  deriving DecidableEq, Repr

namespace DispatchCause

def message : DispatchCause → String
  | entryNotFound entry => "entry point '" ++ entry ++ "' not found"
  | noWorkgroupSize function => "'" ++ function ++ "' has no @workgroup_size"
  | badWorkgroupSize reason => "bad @workgroup_size: " ++ reason.message
  | zeroWorkgroupSize entry => "workgroup size of '" ++ entry ++ "' has a zero dimension"
  | noStatementReached commands =>
    "no statement reached after " ++ toString commands ++ " commands"

end DispatchCause

/-- A failure that stops a request. -/
inductive Fault where
  | lexical (cause : LexicalCause) (line : Nat)
  | parse (cause : ParseCause) (line : Nat) (lexeme : String)
  | dispatch (cause : DispatchCause)
  | layout (text : String)
  /-- A constant `clamp` on integers whose low bound exceeds its high bound has no value. -/
  | emptyClamp
  deriving DecidableEq, Repr

namespace Fault

/-- The text of a failure. -/
def message : Fault → String
  | lexical cause line => "Syntax error: " ++ cause.message line
  | parse cause line lexeme =>
    "Parse error at line " ++ toString line ++ " near '" ++ lexeme ++ "': " ++ cause.message
  | dispatch cause => "Execution error: " ++ cause.message
  | layout text => "Layout error: " ++ text
  | emptyClamp => "clamp of a constant over an empty range"

/-- The line of a failure of the text. -/
def line? : Fault → Option Nat
  | lexical _ line => some line
  | parse _ line _ => some line
  | _ => none

end Fault

end Wgsl
