/-! # Plain text

What is left of a text for a terminal once control sequences and control characters are taken out.
An escape character begins a sequence, and what ends it depends on the characters behind the escape.
Blanks among the control characters are kept. In a sequence that lets control characters through,
such a blank interrupts the sequence: the text behind it is kept too, up to the next control
character, where the sequence goes on.
-/

namespace Wgsl.Text
set_option autoImplicit false

/-! ## Characters -/

/-- Control characters that are blanks. -/
def isBlankControl (c : Char) : Bool := c = '\t' || c = '\n' || c = '\x0c' || c = '\r'

/-- Whether a character is kept outside of all sequences. -/
def isKept (c : Char) : Bool := isBlankControl c || (0x20 ≤ c.toNat && c.toNat ≠ 0x7f)

/-- Whether the number of a character lies between two numbers, both included. -/
def isBetween (lo hi : Nat) (c : Char) : Bool := lo ≤ c.toNat && c.toNat ≤ hi

/-- Whether one of the bytes of a character is the terminator of strings. -/
def holdsTerminator (c : Char) : Bool := (String.utf8EncodeChar c).contains 0x9c

/-! ## Sequences -/

/-- A control sequence that has begun. -/
inductive ControlSequence where
  /-- Only the escape character is read. -/
  | escape
  /-- Marks are read, and one more character ends the sequence. -/
  | marked
  /-- Parameters are read, and a letter ends the sequence. -/
  | parameters
  /-- A command to the terminal, which a bell ends. -/
  | command
  /-- A string for a device of which nothing is read. -/
  | device
  /-- A string for a device of which parameters are read. -/
  | deviceParameters
  /-- A string for a device of which marks are read. -/
  | deviceMarks
  /-- A string that the terminator of strings ends. -/
  | string
  deriving DecidableEq, Repr, Inhabited

namespace ControlSequence

/-- Whether control characters inside the sequence are let through. -/
def letsThrough : ControlSequence → Bool
  | escape | marked | parameters => true
  | command | device | deviceParameters | deviceMarks | string => false

/-- The sequence behind an escape character and one more character. -/
def afterEscape (c : Char) : Option ControlSequence :=
  match c with
  | '[' => some parameters
  | ']' => some command
  | 'P' => some device
  | 'X' | '^' | '_' => some string
  | c =>
    if isBetween 0x20 0x2f c then some marked
    else if isBetween 0x30 0x7e c then none
    else some escape

/-- The sequence behind one more character, if the character does not end it. -/
def next (c : Char) : ControlSequence → Option ControlSequence
  | escape => afterEscape c
  | marked => if isBetween 0x30 0x7e c then none else some marked
  | parameters => if isBetween 0x40 0x7e c then none else some parameters
  | command => if c = '\x07' then none else some command
  | device =>
    if isBetween 0x20 0x2f c then some deviceMarks
    else if isBetween 0x30 0x3f c then some deviceParameters
    else if isBetween 0x40 0x7e c then some string
    else some device
  | deviceParameters =>
    if isBetween 0x20 0x2f c then some deviceMarks
    else if isBetween 0x3c 0x7e c then some string
    else some deviceParameters
  | deviceMarks => if isBetween 0x30 0x7e c then some string else some deviceMarks
  | string => if holdsTerminator c then none else some string

end ControlSequence

/-! ## Reading -/

/-- Where a reader of a text for a terminal stands. -/
inductive TerminalMode where
  /-- Outside of all sequences. -/
  | ground
  /-- Inside a sequence. -/
  | inside (sequence : ControlSequence)
  /-- In text that interrupts a sequence. -/
  | interrupting (sequence : ControlSequence)
  deriving DecidableEq, Repr, Inhabited

/-- The characters that are kept, from a mode on. An escape character begins a sequence wherever it
stands, and two control characters cancel one. A character beyond the ASCII alphabet ends a sequence
that its text interrupts. -/
def plainFrom (mode : TerminalMode) : List Char → List Char
  | [] => []
  | c :: r =>
    if c = '\x1b' then plainFrom (.inside .escape) r
    else if c = '\x18' ∨ c = '\x1a' then plainFrom .ground r
    else
      match mode with
      | .ground => if isKept c then c :: plainFrom .ground r else plainFrom .ground r
      | .inside s =>
        if s.letsThrough && isBlankControl c then c :: plainFrom (.interrupting s) r
        else plainFrom ((s.next c).elim .ground .inside) r
      | .interrupting s =>
        if !isKept c then plainFrom (.inside s) r
        else if c.toNat < 0x80 then c :: plainFrom (.interrupting s) r
        else c :: plainFrom .ground r

/-- The text without control sequences and control characters. -/
def plain (s : String) : String := String.ofList (plainFrom .ground s.toList)

/-! ## Emphasis -/

/-- A text that a terminal shows in bold. -/
def emphasized (s : String) : String := "\x1b[1m" ++ s ++ "\x1b[0m"

end Wgsl.Text
