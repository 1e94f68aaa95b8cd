import Wgsl.Fault
import Wgsl.Text.Blank
import Wgsl.Token.Numeral

/-! # Scanning

`tokenize` turns a text into tokens and an end mark. Blanks and comments separate tokens and are
dropped; block comments nest.

Two spellings depend on the tokens before them.

* A `-` glued to a number belongs to the number, unless the token before it ends an operand.
* A `>` before `>` or `=` stands alone when a recent `<` opened a template list.
-/

namespace Wgsl.Token
set_option autoImplicit false

/-- How many tokens back a template-opening `<` is looked for. -/
def templateLookback : Nat := 5

/-- Whether the latest `<` among the recent tokens (latest first) opened a template list and no
assignment came after it. Only `budget` tokens are looked at. -/
def closesTemplate : Nat → List Token → Bool
  | 0, _ => false
  | _, [] => false
  | budget + 1, t :: older =>
    if t.kind.isAssignment then false
    else if t.kind = .lessThan then
      match older with
      | name :: _ => name.kind = .identifier && isTemplateName name.lexeme
      | [] => false
    else closesTemplate budget older

/-- Looks for the end of a block comment of the given depth: what follows it and the number of line
ends inside. -/
def closeComment : (depth : Nat) → (newlines : Nat) → List Char → Option (List Char × Nat)
  | depth, newlines, '/' :: '*' :: r => closeComment (depth + 1) newlines r
  | depth, newlines, '*' :: '/' :: r =>
    if depth ≤ 1 then some (r, newlines) else closeComment (depth - 1) newlines r
  | depth, newlines, c :: r => closeComment depth (if c = '\n' then newlines + 1 else newlines) r
  | _, _, [] => none

/-- What stands at the beginning of a text. -/
inductive Piece where
  /-- A blank or a comment, with the line ends in it. -/
  | gap (rest : List Char) (newlines : Nat)
  | token (kind : TokenKind) (lexeme : List Char) (rest : List Char)

/-- Letters of the ASCII alphabet. -/
def isLetter (c : Char) : Bool := ('a' ≤ c && c ≤ 'z') || ('A' ≤ c && c ≤ 'Z')

/-- Characters that continue a word. -/
def isWordChar (c : Char) : Bool := isLetter c || Numeral.isDigit c || c == '_'

/-- A blank or a comment at the beginning of the text, if one stands there. -/
def gap? : List Char → Except LexicalCause (Option Piece)
  | '/' :: '/' :: r => .ok (some (.gap (r.dropWhile (· != '\n')) 0))
  | '/' :: '*' :: r =>
    match closeComment 1 0 r with
    | some (rest, newlines) => .ok (some (.gap rest newlines))
    | none => .error .unterminatedComment
  | c :: r => .ok (if Text.isBlank c then some (.gap r (if c = '\n' then 1 else 0)) else none)
  | [] => .ok none

/-- The number at the beginning of the text, with `lead` characters already taken. -/
def number? (lead : List Char) (cs : List Char) : Option Piece :=
  if Numeral.starts cs then
    (Numeral.scanNumber cs).map fun m => .token m.kind (lead ++ m.lexeme) m.rest
  else none

/-- A number with its sign. -/
def negative? (recent : List Token) : List Char → Option Piece
  | '-' :: r =>
    if (recent.head?.map (·.kind.endsOperand)).getD false then none else number? ['-'] r
  | _ => none

/-- A reserved word, an identifier or a lone underscore. -/
def word? : List Char → Option Piece
  | c :: r =>
    if isLetter c || c == '_' then
      let lexeme := c :: r.takeWhile isWordChar
      some (.token (wordKind (String.ofList lexeme)) lexeme (r.dropWhile isWordChar))
    else none
  | [] => none

/-- A `>` that closes a template list although `>` or `=` follows. -/
def templateEnd? (recent : List Token) : List Char → Option Piece
  | '>' :: c :: r =>
    if (c == '>' || c == '=') && closesTemplate templateLookback recent then
      some (.token .greaterThan ['>'] (c :: r))
    else none
  | _ => none

/-- The first operator of the table that the text begins with. -/
def operator? (cs : List Char) : Option Piece :=
  (operators.find? fun (text, _) => text.isPrefixOf cs).map fun (text, kind) =>
    .token kind text (cs.drop text.length)

/-- What stands at the beginning of a nonempty text, after the given tokens (latest first). -/
def piece (recent : List Token) (cs : List Char) : Except LexicalCause Piece :=
  match gap? cs with
  | .error cause => .error cause
  | .ok (some p) => .ok p
  | .ok none =>
    match number? [] cs <|> negative? recent cs <|> word? cs <|> templateEnd? recent cs <|>
        operator? cs with
    | some p => .ok p
    | none => .error (.unexpectedCharacter (cs.headD ' '))

/-- Scans the text from the given line on. Every piece takes at least one character, so a budget of
one step for each character is enough. -/
def scan : (budget : Nat) → (line : Nat) → (recent : List Token) → List Char →
    Except Fault (List Token)
  | _, line, recent, [] => .ok (recent.reverse ++ [⟨.eof, "", line⟩])
  | 0, line, recent, _ => .ok (recent.reverse ++ [⟨.eof, "", line⟩])
  | budget + 1, line, recent, c :: r =>
    match piece recent (c :: r) with
    | .error cause => .error (.lexical cause line)
    | .ok (.gap rest newlines) => scan budget (line + newlines) recent rest
    | .ok (.token kind lexeme rest) =>
      scan budget line (⟨kind, String.ofList lexeme, line⟩ :: recent) rest

/-- The tokens of a text, with an end mark behind them. -/
def tokenize (source : String) : Except Fault (List Token) :=
  let cs := source.toList
  scan cs.length 1 [] cs

end Wgsl.Token
