/-! # Blank characters

The twenty-five characters with the Unicode property `White_Space`: five controls and the next-line
control in the Latin block, the spaces of the general punctuation block, and four more. They are what
may stand between tokens, and what is cut from the ends of a text.
-/

namespace Wgsl.Text
set_option autoImplicit false

/-- Whether a character counts as white space. -/
def isBlank (c : Char) : Bool :=
  let n := c.toNat
  (0x09 ≤ n && n ≤ 0x0d) || n == 0x20 || n == 0x85 || n == 0xa0 || n == 0x1680 ||
    (0x2000 ≤ n && n ≤ 0x200a) || n == 0x2028 || n == 0x2029 || n == 0x202f || n == 0x205f ||
    n == 0x3000

/-- The characters without the blanks at the end. -/
def dropTrailing (drop : Char → Bool) (cs : List Char) : List Char :=
  (cs.reverse.dropWhile drop).reverse

/-- The text without the blanks at the end. -/
def trimRight (s : String) : String := String.ofList (dropTrailing isBlank s.toList)

/-- The text without the blanks at either end. -/
def trim (s : String) : String := String.ofList (dropTrailing isBlank (s.toList.dropWhile isBlank))

/-- The parts of a text joined by a separator. -/
def join (separator : String) : List String → String
  | [] => ""
  | [s] => s
  | s :: t :: r => s ++ separator ++ join separator (t :: r)

end Wgsl.Text
