import Wgsl.Tree.Program

/-! # What a function body mentions

A body as the sequence of names it mentions, in the order in which they are met, with marks where a
scope begins and ends and where a local name begins to hold. Call graphs and the use of resources
are read off this sequence.
-/

namespace Wgsl
set_option autoImplicit false

/-- One thing met on a walk through a body. -/
inductive Mention where
  | enter
  | leave
  /-- A local name holds from here to the end of its scope. -/
  | declare (name : String)
  | type (type : TypeExpr)
  | variable_ (name : String)
  | call (name : String)

mutual

/-- What an expression mentions. -/
def Expr.mentions : Expr → List Mention
  | .literal .. => []
  | .var _ name => [.variable_ name]
  | .binary _ _ lhs rhs => Expr.mentions lhs ++ Expr.mentions rhs
  | .unary _ _ operand => Expr.mentions operand
  | .call _ name args => .call name :: Expr.listMentions args
  | .construct _ type args => .type type :: Expr.listMentions args
  | .bitcast _ type value => .type type :: Expr.mentions value
  | .index _ base i => Expr.mentions base ++ Expr.mentions i
  | .member _ base _ => Expr.mentions base
  | .group _ inner => Expr.mentions inner

def Expr.listMentions : List Expr → List Mention
  | [] => []
  | e :: r => Expr.mentions e ++ Expr.listMentions r

end

/-- The initializer and the type come before the name holds. -/
def VarDecl.mentions (v : VarDecl) : List Mention :=
  v.value.elim [] Expr.mentions ++ (v.type.elim [] fun t => [.type t]) ++ [.declare v.name]

def SimpleStmt.mentions (s : SimpleStmt) : List Mention :=
  match s.action with
  | .declare _ decl => decl.mentions
  | .assign _ target value => target.elim [] Expr.mentions ++ value.mentions
  | .increment _ target => target.mentions
  | .call callee => callee.mentions

mutual

/-- What a statement mentions. A `for` is a scope of its own around its header and body. -/
def Stmt.mentions : Stmt → List Mention
  | .simple s => s.mentions
  | .ifElse _ condition body rest =>
    condition.mentions ++ Stmt.blockMentions body ++ ElseChain.mentions rest
  | .forLoop _ init condition update body =>
    .enter :: (init.elim [] SimpleStmt.mentions ++ condition.elim [] Expr.mentions ++
      update.elim [] SimpleStmt.mentions ++ Stmt.blockMentions body ++ [.leave])
  | .whileLoop _ condition body => condition.mentions ++ Stmt.blockMentions body
  | .loop _ body continuing => Stmt.blockMentions body ++ Stmt.continuingMentions continuing
  | .switch _ selector clauses => selector.mentions ++ SwitchClause.mentions clauses
  | .block _ body => Stmt.blockMentions body
  | .return_ _ value => value.elim [] Expr.mentions
  | .breakIf _ condition => condition.mentions
  | .constAssert _ condition => condition.mentions
  | .break_ _ => []
  | .continue_ _ => []
  | .discard _ => []

/-- The statements of a body, without the marks of its scope. -/
def Stmt.listMentions : List Stmt → List Mention
  | [] => []
  | s :: r => Stmt.mentions s ++ Stmt.listMentions r

/-- A block is a scope. -/
def Stmt.blockMentions (body : List Stmt) : List Mention :=
  .enter :: (Stmt.listMentions body ++ [.leave])

def Stmt.continuingMentions : Option (List Stmt) → List Mention
  | none => []
  | some body => .enter :: (Stmt.listMentions body ++ [.leave])

def ElseChain.mentions : ElseChain → List Mention
  | .none => []
  | .else_ body => .enter :: (Stmt.listMentions body ++ [.leave])
  | .elseIf _ condition body rest =>
    condition.mentions ++ (.enter :: (Stmt.listMentions body ++ [.leave])) ++ ElseChain.mentions rest

def SwitchClause.mentions : List SwitchClause → List Mention
  | [] => []
  | .mk _ selectors _ body :: r =>
    Expr.listMentions selectors ++ (.enter :: (Stmt.listMentions body ++ [.leave])) ++
      SwitchClause.mentions r

end

/-- What a function mentions: the types of its signature, then its body. -/
def Function.mentions (f : Function) : List Mention :=
  f.args.map (fun a => .type a.type) ++ (f.returnType.elim [] fun t => [.type t]) ++
    Stmt.blockMentions f.body

end Wgsl
