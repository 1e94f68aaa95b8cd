import Wgsl.Tree.Program

/-! # Array counts settled late

`Program.withCounts` enters counts into the array types of a program, by the number of the type. It
reaches the types of declarations, arguments, results and locals, and the types named in
expressions; it leaves alone attribute arguments, written count expressions and the selectors of
`switch` clauses.
-/

namespace Wgsl
set_option autoImplicit false

/-- Counts by the number of the array type. -/
abbrev Counts := NodeId → Option UInt32

mutual

/-- Enters counts into a type and its parameters. -/
def TypeExpr.withCounts (counts : Counts) : TypeExpr → TypeExpr
  | .named id attributes name => .named id attributes name
  | .template id attributes name param access space =>
    .template id attributes name (TypeExpr.paramWithCounts counts param) access space
  | .array id attributes element count countExpr =>
    .array id attributes (TypeExpr.paramWithCounts counts element) (counts id <|> count) countExpr

def TypeExpr.paramWithCounts (counts : Counts) : Option TypeExpr → Option TypeExpr
  | none => none
  | some t => some (TypeExpr.withCounts counts t)

end

mutual

/-- Enters counts into the types named in an expression. -/
def Expr.withCounts (counts : Counts) : Expr → Expr
  | .literal mark value => .literal mark value
  | .var mark name => .var mark name
  | .binary mark op lhs rhs =>
    .binary mark op (Expr.withCounts counts lhs) (Expr.withCounts counts rhs)
  | .unary mark op operand => .unary mark op (Expr.withCounts counts operand)
  | .call mark name args => .call mark name (Expr.listWithCounts counts args)
  | .construct mark type args =>
    .construct mark (type.withCounts counts) (Expr.listWithCounts counts args)
  | .bitcast mark type value =>
    .bitcast mark (type.withCounts counts) (Expr.withCounts counts value)
  | .index mark base i => .index mark (Expr.withCounts counts base) (Expr.withCounts counts i)
  | .member mark base name => .member mark (Expr.withCounts counts base) name
  | .group mark inner => .group mark (Expr.withCounts counts inner)

def Expr.listWithCounts (counts : Counts) : List Expr → List Expr
  | [] => []
  | e :: r => Expr.withCounts counts e :: Expr.listWithCounts counts r

end

def VarDecl.withCounts (counts : Counts) (v : VarDecl) : VarDecl :=
  { v with
    type := v.type.map (TypeExpr.withCounts counts)
    value := v.value.map (Expr.withCounts counts) }

def SimpleStmt.withCounts (counts : Counts) (s : SimpleStmt) : SimpleStmt :=
  { s with
    action := match s.action with
      | .declare kind decl => .declare kind (decl.withCounts counts)
      | .assign op target value =>
        .assign op (target.map (Expr.withCounts counts)) (value.withCounts counts)
      | .increment op target => .increment op (target.withCounts counts)
      | .call callee => .call (callee.withCounts counts) }

mutual

/-- Enters counts into a statement. -/
def Stmt.withCounts (counts : Counts) : Stmt → Stmt
  | .simple s => .simple (s.withCounts counts)
  | .ifElse line condition body rest =>
    .ifElse line (condition.withCounts counts) (Stmt.listWithCounts counts body)
      (ElseChain.withCounts counts rest)
  | .forLoop line init condition update body =>
    .forLoop line (init.map (SimpleStmt.withCounts counts)) (condition.map (Expr.withCounts counts))
      (update.map (SimpleStmt.withCounts counts)) (Stmt.listWithCounts counts body)
  | .whileLoop line condition body =>
    .whileLoop line (condition.withCounts counts) (Stmt.listWithCounts counts body)
  | .loop line body continuing =>
    .loop line (Stmt.listWithCounts counts body) (Stmt.blockWithCounts counts continuing)
  | .switch line selector clauses =>
    .switch line (selector.withCounts counts) (SwitchClause.listWithCounts counts clauses)
  | .block line body => .block line (Stmt.listWithCounts counts body)
  | .return_ line value => .return_ line (value.map (Expr.withCounts counts))
  | .break_ line => .break_ line
  | .breakIf line condition => .breakIf line (condition.withCounts counts)
  | .continue_ line => .continue_ line
  | .discard line => .discard line
  | .constAssert line condition => .constAssert line (condition.withCounts counts)

def Stmt.listWithCounts (counts : Counts) : List Stmt → List Stmt
  | [] => []
  | s :: r => Stmt.withCounts counts s :: Stmt.listWithCounts counts r

def Stmt.blockWithCounts (counts : Counts) : Option (List Stmt) → Option (List Stmt)
  | none => none
  | some body => some (Stmt.listWithCounts counts body)

def ElseChain.withCounts (counts : Counts) : ElseChain → ElseChain
  | .none => .none
  | .else_ body => .else_ (Stmt.listWithCounts counts body)
  | .elseIf line condition body rest =>
    .elseIf line (condition.withCounts counts) (Stmt.listWithCounts counts body)
      (ElseChain.withCounts counts rest)

def SwitchClause.withCounts (counts : Counts) : SwitchClause → SwitchClause
  | .mk line selectors isDefault body =>
    .mk line selectors isDefault (Stmt.listWithCounts counts body)

def SwitchClause.listWithCounts (counts : Counts) : List SwitchClause → List SwitchClause
  | [] => []
  | c :: r => SwitchClause.withCounts counts c :: SwitchClause.listWithCounts counts r

end

def Field.withCounts (counts : Counts) (f : Field) : Field :=
  { f with type := f.type.withCounts counts }

/-- Enters counts into a declaration. -/
def Declaration.withCounts (counts : Counts) : Declaration → Declaration
  | .struct s => .struct { s with members := s.members.map (Field.withCounts counts) }
  | .alias_ a => .alias_ { a with type := a.type.withCounts counts }
  | .value kind v => .value kind (v.withCounts counts)
  | .function f =>
    .function { f with
      args := f.args.map (Field.withCounts counts)
      returnType := f.returnType.map (TypeExpr.withCounts counts)
      body := Stmt.listWithCounts counts f.body }
  | .constAssert condition => .constAssert (condition.withCounts counts)
  | d => d

/-- Enters counts into a program. -/
def Program.withCounts (counts : Counts) (p : Program) : Program :=
  ⟨p.declarations.map (Declaration.withCounts counts)⟩

end Wgsl
