/-! # Operators

The operators of expressions and assignments, with their spelling.
-/

namespace Wgsl
set_option autoImplicit false

/-- Operators with two operands. -/
inductive BinaryOp where
  | add
  | subtract
  | multiply
  | divide
  | modulo
  | equal
  | notEqual
  | less
  | lessEqual
  | greater
  | greaterEqual
  | logicalAnd
  | logicalOr
  | bitAnd
  | bitOr
  | bitXor
  | shiftLeft
  | shiftRight
  deriving DecidableEq, Repr, Inhabited

def BinaryOp.symbol : BinaryOp → String
  | add => "+"
  | subtract => "-"
  | multiply => "*"
  | divide => "/"
  | modulo => "%"
  | equal => "=="
  | notEqual => "!="
  | less => "<"
  | lessEqual => "<="
  | greater => ">"
  | greaterEqual => ">="
  | logicalAnd => "&&"
  | logicalOr => "||"
  | bitAnd => "&"
  | bitOr => "|"
  | bitXor => "^"
  | shiftLeft => "<<"
  | shiftRight => ">>"

/-- Operators in front of one operand. -/
inductive UnaryOp where
  | negate
  | not
  | complement
  | addressOf
  | deref
  deriving DecidableEq, Repr, Inhabited

def UnaryOp.symbol : UnaryOp → String
  | negate => "-"
  | not => "!"
  | complement => "~"
  | addressOf => "&"
  | deref => "*"

/-- Plain assignment, or assignment of the outcome of a binary operator. -/
inductive AssignOp where
  | plain
  | compound (op : BinaryOp)
  deriving DecidableEq, Repr, Inhabited

def AssignOp.symbol : AssignOp → String
  | plain => "="
  | compound op => op.symbol ++ "="

/-- Counting up or down by one. -/
inductive IncrementOp where
  | increment
  | decrement
  deriving DecidableEq, Repr, Inhabited

def IncrementOp.symbol : IncrementOp → String
  | increment => "++"
  | decrement => "--"

/-- The binary operator that counting applies. -/
def IncrementOp.binary : IncrementOp → BinaryOp
  | increment => .add
  | decrement => .subtract

end Wgsl
