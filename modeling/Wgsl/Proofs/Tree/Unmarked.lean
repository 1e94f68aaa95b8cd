import Wgsl.Tree.Expr

/-! # Trees up to their marks

Two trees that are spelled alike differ in the numbers of their nodes and in their lines alone. A tree
is compared with another by setting all of these to zero in both.
-/

namespace Wgsl
set_option autoImplicit false

mutual

/-- The expression with all numbers and lines set to zero. -/
def Expr.unmarked : Expr → Expr
  | .literal _ value => .literal default value
  | .var _ name => .var default name
  | .binary _ op lhs rhs => .binary default op (Expr.unmarked lhs) (Expr.unmarked rhs)
  | .unary _ op operand => .unary default op (Expr.unmarked operand)
  | .call _ name args => .call default name (Expr.unmarkedList args)
  | .construct _ type args => .construct default (TypeExpr.unmarked type) (Expr.unmarkedList args)
  | .bitcast _ type value => .bitcast default (TypeExpr.unmarked type) (Expr.unmarked value)
  | .index _ base i => .index default (Expr.unmarked base) (Expr.unmarked i)
  | .member _ base name => .member default (Expr.unmarked base) name
  | .group _ inner => .group default (Expr.unmarked inner)

def Expr.unmarkedList : List Expr → List Expr
  | [] => []
  | e :: rest => Expr.unmarked e :: Expr.unmarkedList rest

/-- The type with all numbers and lines set to zero. -/
def TypeExpr.unmarked : TypeExpr → TypeExpr
  | .named _ attributes name => .named 0 (Attribute.unmarkedList attributes) name
  | .template _ attributes name param access space =>
    .template 0 (Attribute.unmarkedList attributes) name (TypeExpr.unmarkedParam param) access space
  | .array _ attributes element count countExpr =>
    .array 0 (Attribute.unmarkedList attributes) (TypeExpr.unmarkedParam element) count
      (Expr.unmarkedCount countExpr)

def TypeExpr.unmarkedParam : Option TypeExpr → Option TypeExpr
  | none => none
  | some t => some (TypeExpr.unmarked t)

def Expr.unmarkedCount : Option Expr → Option Expr
  | none => none
  | some e => some (Expr.unmarked e)

def Attribute.unmarked : Attribute → Attribute
  | .mk name args _ => .mk name (Expr.unmarkedList args) 0

def Attribute.unmarkedList : List Attribute → List Attribute
  | [] => []
  | a :: rest => Attribute.unmarked a :: Attribute.unmarkedList rest

end

mutual

/-- The type with all numbers and lines set to zero and without recorded count expressions. -/
def TypeExpr.skeleton : TypeExpr → TypeExpr
  | .named _ attributes name => .named 0 (Attribute.unmarkedList attributes) name
  | .template _ attributes name param access space =>
    .template 0 (Attribute.unmarkedList attributes) name (TypeExpr.skeletonParam param) access space
  | .array _ attributes element count _ =>
    .array 0 (Attribute.unmarkedList attributes) (TypeExpr.skeletonParam element) count none

def TypeExpr.skeletonParam : Option TypeExpr → Option TypeExpr
  | none => none
  | some t => some (TypeExpr.skeleton t)

end

end Wgsl
