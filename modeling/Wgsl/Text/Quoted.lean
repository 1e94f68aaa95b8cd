import Wgsl.Text.Classes

/-! # Quoted text

A text between double quotes, with escapes for what would not read well: quotes, backslashes,
control characters and characters that have no shape of their own.
-/

namespace Wgsl.Text
set_option autoImplicit false

/-- A number in lower-case hexadecimal digits. -/
def hexadecimal (n : Nat) : String := String.ofList (Nat.toDigits 16 n)

/-- The escape of a character by its number. -/
def numericEscape (c : Char) : String := "\\u\x7b" ++ hexadecimal c.toNat ++ "\x7d"

/-- Whether a character is shown by its number, because it would not be seen by itself. -/
def isShapeless (c : Char) : Bool := isUnprinted c || isExtending c || isIgnorable c

/-- A character inside a quoted text. -/
def escaped (c : Char) : String :=
  match c with
  | '"' => "\\\""
  | '\\' => "\\\\"
  | '\n' => "\\n"
  | '\r' => "\\r"
  | '\t' => "\\t"
  | '\x00' => "\\0"
  | c => if isShapeless c then numericEscape c else c.toString

/-- A text between double quotes. -/
def quoted (s : String) : String := "\"" ++ String.join (s.toList.map escaped) ++ "\""

end Wgsl.Text
