import Wgsl.Token

/-! # Numerals

The languages of numeric literals and the longest literal at the start of a text.

A `Recognizer` cuts the beginning of a text off. Decimal and hexadecimal integers and floats each
have one; `scanNumber` takes the longest match of the four, a float winning a tie.
-/

namespace Wgsl.Numeral
set_option autoImplicit false

/-- Cuts a text into a beginning that is accepted and the rest, or refuses. -/
abbrev Recognizer := List Char → Option (List Char × List Char)

/-- Accepts the empty beginning. -/
def nothing : Recognizer := fun cs => some ([], cs)

/-- Exactly one character of the class. -/
def one (p : Char → Bool) : Recognizer
  | [] => none
  | c :: r => if p c then some ([c], r) else none

/-- A run of characters of the class, as long as possible and maybe empty. -/
def many (p : Char → Bool) : Recognizer := fun cs => some (cs.takeWhile p, cs.dropWhile p)

/-- One recognizer after another. -/
def followedBy (a b : Recognizer) : Recognizer := fun cs =>
  (a cs).bind fun (first, behind) => (b behind).map fun (second, rest) => (first ++ second, rest)

/-- The recognizer if it accepts, else nothing is consumed. -/
def optional (a : Recognizer) : Recognizer := fun cs => some ((a cs).getD ([], cs))

/-- The first of the alternatives that accepts. -/
def firstOf (rs : List Recognizer) : Recognizer := fun cs => rs.findSome? fun r => r cs

/-- One recognizer after another, for a whole list. -/
def sequence (rs : List Recognizer) : Recognizer := rs.foldr followedBy nothing

/-- A run of at least one character of the class. -/
def many1 (p : Char → Bool) : Recognizer := followedBy (one p) (many p)

/-- A digit of base ten. -/
def isDigit (c : Char) : Bool := '0' ≤ c && c ≤ '9'

/-- A digit of base sixteen, in either case. -/
def isHexDigit (c : Char) : Bool :=
  isDigit c || ('a' ≤ c && c ≤ 'f') || ('A' ≤ c && c ≤ 'F')

def point : Recognizer := one (· == '.')

/-- The letter that makes a float. -/
def floatSuffix : Recognizer := one fun c => c == 'f' || c == 'h'

/-- The letter that makes an integer signed or unsigned. -/
def intSuffix : Recognizer := one fun c => c == 'i' || c == 'u'

def sign : Recognizer := one fun c => c == '+' || c == '-'

/-- A decimal exponent. -/
def exponent : Recognizer :=
  sequence [one fun c => c == 'e' || c == 'E', optional sign, many1 isDigit]

/-- A binary exponent, in decimal digits. -/
def hexExponent : Recognizer :=
  sequence [one fun c => c == 'p' || c == 'P', optional sign, many1 isDigit]

/-- The mark of a hexadecimal numeral. -/
def hexMark : Recognizer := sequence [one (· == '0'), one fun c => c == 'x' || c == 'X']

/-- `.5 1.5 1.5e3`, then `1. 1.e3`, then `1e3`, then `1f`. -/
def decimalFloat : Recognizer := firstOf [
  sequence [many isDigit, point, many1 isDigit, optional exponent, optional floatSuffix],
  sequence [many1 isDigit, point, many isDigit, optional exponent, optional floatSuffix],
  sequence [many1 isDigit, exponent, optional floatSuffix],
  sequence [many1 isDigit, floatSuffix]]

/-- `0x.8 0x1.8p3`, then `0x1. 0x1.p2`, then `0x1p4`; a suffix stands only behind an exponent. -/
def hexFloat : Recognizer :=
  let scaled := sequence [hexExponent, optional floatSuffix]
  firstOf [
    sequence [hexMark, many isHexDigit, point, many1 isHexDigit, optional scaled],
    sequence [hexMark, many1 isHexDigit, point, many isHexDigit, optional scaled],
    sequence [hexMark, many1 isHexDigit, scaled]]

def hexInt : Recognizer := sequence [hexMark, many1 isHexDigit, optional intSuffix]

def decimalInt : Recognizer := sequence [many1 isDigit, optional intSuffix]

/-- The four languages, in the order in which a tie is settled. -/
def languages : List (TokenKind × Recognizer) :=
  [(.floatLiteral, hexFloat), (.floatLiteral, decimalFloat), (.intLiteral, hexInt),
    (.intLiteral, decimalInt)]

/-- A literal at the start of a text. -/
structure Match where
  kind : TokenKind
  lexeme : List Char
  /-- What follows the literal. -/
  rest : List Char
  deriving DecidableEq, Repr

/-- Keeps the longer of two matches, the earlier one on a tie. -/
def longer (best : Option Match) (next : Match) : Option Match :=
  match best with
  | none => some next
  | some b => if b.lexeme.length < next.lexeme.length then some next else some b

/-- The longest literal at the start of the text. -/
def scanNumber (cs : List Char) : Option Match :=
  languages.foldl (fun best (kind, r) =>
    match r cs with
    | some (lexeme, rest) => longer best ⟨kind, lexeme, rest⟩
    | none => best) none

/-- Whether a numeral starts here: a digit, or a point and a digit. -/
def starts : List Char → Bool
  | '.' :: d :: _ => isDigit d
  | c :: _ => isDigit c
  | [] => false

end Wgsl.Numeral
