import Wgsl.Number.Double
import Wgsl.Tree.Operator

/-! # Expressions and types

Expressions and type annotations refer to each other: a constructor names a type, an array type has
a count expression, and both may carry attributes with arguments. Each node has a number, unique
within one program; the layout of a type and the result of a stepped call are kept under it.
-/

namespace Wgsl
set_option autoImplicit false

/-- The number of a node: expressions and types of one program share one sequence. -/
abbrev NodeId := Nat

/-- The value of a literal with the letter that fixes its type. -/
inductive Literal where
  | bool (value : Bool)
  | int (value : Int64) (suffix : Option Char)
  | float (value : Float) (suffix : Option Char)
  deriving Inhabited

/-- The text of a literal. -/
def Literal.text : Literal → String
  | .bool b => if b then "true" else "false"
  | .int value suffix => toString value.toInt ++ (suffix.map Char.toString).getD ""
  | .float value suffix => Number.Double.spellLiteral value ++ (suffix.map Char.toString).getD ""

/-- Where an expression stands: its number and its line. -/
structure Mark where
  id : NodeId
  line : Nat
  deriving DecidableEq, Repr, Inhabited

mutual

/-- An expression. -/
inductive Expr where
  | literal (mark : Mark) (value : Literal)
  | var (mark : Mark) (name : String)
  | binary (mark : Mark) (op : BinaryOp) (lhs rhs : Expr)
  | unary (mark : Mark) (op : UnaryOp) (operand : Expr)
  /-- A call of a function. A constructor of a structure that is declared further down looks the
  same. -/
  | call (mark : Mark) (name : String) (args : List Expr)
  /-- A value built or converted by naming its type. -/
  | construct (mark : Mark) (type : TypeExpr) (args : List Expr)
  | bitcast (mark : Mark) (type : TypeExpr) (value : Expr)
  | index (mark : Mark) (base : Expr) (index : Expr)
  | member (mark : Mark) (base : Expr) (name : String)
  /-- An expression in parentheses. -/
  | group (mark : Mark) (inner : Expr)

/-- A type annotation. -/
inductive TypeExpr where
  /-- Scalars, structures, aliases, samplers and other plain names. -/
  | named (id : NodeId) (attributes : List Attribute) (name : String)
  /-- Generators with parameters. The `space` is the address space of a pointer or the texel format
  of a storage texture. -/
  | template (id : NodeId) (attributes : List Attribute) (name : String) (param : Option TypeExpr)
      (access space : Option String)
  /-- Arrays. The count is missing in runtime-sized arrays and where it does not fold; the written
  count expression is kept. -/
  | array (id : NodeId) (attributes : List Attribute) (element : Option TypeExpr)
      (count : Option UInt32) (countExpr : Option Expr)

/-- An attribute such as `@group(0)`. -/
inductive Attribute where
  | mk (name : String) (args : List Expr) (line : Nat)

end

instance : Inhabited Expr := ⟨.var ⟨0, 0⟩ ""⟩
instance : Inhabited TypeExpr := ⟨.named 0 [] ""⟩
instance : Inhabited Attribute := ⟨.mk "" [] 0⟩

namespace Expr

/-- Number and line of an expression. -/
def mark : Expr → Mark
  | literal m _ | var m _ | binary m _ _ _ | unary m _ _ | call m _ _ | construct m _ _
  | bitcast m _ _ | index m _ _ | member m _ _ | group m _ => m

def id (e : Expr) : NodeId := e.mark.id

def line (e : Expr) : Nat := e.mark.line

end Expr

namespace Attribute

def name : Attribute → String
  | mk n _ _ => n

def args : Attribute → List Expr
  | mk _ a _ => a

def line : Attribute → Nat
  | mk _ _ l => l

/-- The first attribute of that name. -/
def find? (attributes : List Attribute) (name : String) : Option Attribute :=
  attributes.find? fun a => a.name = name

/-- The first argument if it is a plain name or literal, as text. -/
def firstArgText? (a : Attribute) : Option String :=
  match a.args with
  | .var _ name :: _ => some name
  | .literal _ value :: _ => some value.text
  | _ => none

end Attribute

namespace TypeExpr

def id : TypeExpr → NodeId
  | named i _ _ | template i _ _ _ _ _ | array i _ _ _ _ => i

/-- The plain name or the name of the generator. -/
def name : TypeExpr → String
  | named _ _ n | template _ _ n _ _ _ => n
  | array .. => "array"

/-- The type that a generator is applied to. -/
def param? : TypeExpr → Option TypeExpr
  | named .. => none
  | template _ _ _ p _ _ => p
  | array _ _ p _ _ => p

mutual

/-- The text of a type, without attributes. -/
def text : TypeExpr → String
  | named _ _ n => n
  | template _ _ n p access space =>
    match space.toList ++ paramText p ++ access.toList with
    | [] => n
    | params => n ++ "<" ++ ", ".intercalate params ++ ">"
  | array _ _ element count _ =>
    match paramText element, count with
    | e :: _, some c => "array<" ++ e ++ ", " ++ toString c.toNat ++ ">"
    | e :: _, none => "array<" ++ e ++ ">"
    | [], _ => "array"

/-- The text of an optional parameter, as a list of at most one. -/
def paramText : Option TypeExpr → List String
  | none => []
  | some t => [text t]

end

end TypeExpr

end Wgsl
