import Wgsl.Tree.Expr

/-! # Statements and declarations

Simple statements are those that may stand in the header of a `for`: declarations, assignments,
counting and calls. The other statements hold blocks of statements.
-/

namespace Wgsl
set_option autoImplicit false

/-- What `var`, `let`, `const` and `override` declare. -/
structure VarDecl where
  name : String
  type : Option TypeExpr
  storage : Option String
  access : Option String
  value : Option Expr
  attributes : List Attribute
  line : Nat
  deriving Inhabited

/-- The word that introduces a local declaration. -/
inductive LocalKind where
  | var
  | let_
  | const
  deriving DecidableEq, Repr, Inhabited

def LocalKind.keyword : LocalKind → String
  | var => "var"
  | let_ => "let"
  | const => "const"

/-- What a simple statement does. -/
inductive Action where
  | declare (kind : LocalKind) (decl : VarDecl)
  /-- The target is missing in `_ = value`. -/
  | assign (op : AssignOp) (target : Option Expr) (value : Expr)
  | increment (op : IncrementOp) (target : Expr)
  | call (callee : Expr)
  deriving Inhabited

/-- A simple statement. -/
structure SimpleStmt where
  line : Nat
  action : Action
  deriving Inhabited

mutual

/-- A statement. -/
inductive Stmt where
  | simple (stmt : SimpleStmt)
  | ifElse (line : Nat) (condition : Expr) (body : List Stmt) (rest : ElseChain)
  | forLoop (line : Nat) (init : Option SimpleStmt) (condition : Option Expr)
      (update : Option SimpleStmt) (body : List Stmt)
  | whileLoop (line : Nat) (condition : Expr) (body : List Stmt)
  | loop (line : Nat) (body : List Stmt) (continuing : Option (List Stmt))
  | switch (line : Nat) (selector : Expr) (clauses : List SwitchClause)
  | block (line : Nat) (body : List Stmt)
  | return_ (line : Nat) (value : Option Expr)
  | break_ (line : Nat)
  | breakIf (line : Nat) (condition : Expr)
  | continue_ (line : Nat)
  | discard (line : Nat)
  | constAssert (line : Nat) (condition : Expr)

/-- What follows the first branch of an `if`. -/
inductive ElseChain where
  | none
  | else_ (body : List Stmt)
  | elseIf (line : Nat) (condition : Expr) (body : List Stmt) (rest : ElseChain)

/-- A clause of a `switch`: its selectors, whether `default` is among them, and its body. -/
inductive SwitchClause where
  | mk (line : Nat) (selectors : List Expr) (isDefault : Bool) (body : List Stmt)

end

instance : Inhabited Stmt := ⟨.break_ 0⟩
instance : Inhabited SwitchClause := ⟨.mk 0 [] false []⟩

def Stmt.line : Stmt → Nat
  | .simple s => s.line
  | .ifElse l _ _ _ | .forLoop l _ _ _ _ | .whileLoop l _ _ | .loop l _ _ | .switch l _ _
  | .block l _ | .return_ l _ | .break_ l | .breakIf l _ | .continue_ l | .discard l
  | .constAssert l _ => l

namespace SwitchClause

def line : SwitchClause → Nat
  | mk l _ _ _ => l

def selectors : SwitchClause → List Expr
  | mk _ s _ _ => s

def isDefault : SwitchClause → Bool
  | mk _ _ d _ => d

def body : SwitchClause → List Stmt
  | mk _ _ _ b => b

end SwitchClause

/-- A member of a structure, or an argument of a function. -/
structure Field where
  name : String
  type : TypeExpr
  attributes : List Attribute
  deriving Inhabited

structure StructDecl where
  name : String
  members : List Field
  attributes : List Attribute
  startLine : Nat
  endLine : Nat
  deriving Inhabited

structure AliasDecl where
  name : String
  type : TypeExpr
  line : Nat
  deriving Inhabited

structure Function where
  name : String
  args : List Field
  returnType : Option TypeExpr
  returnAttributes : List Attribute
  attributes : List Attribute
  body : List Stmt
  startLine : Nat
  endLine : Nat
  deriving Inhabited

def Function.attribute? (f : Function) (name : String) : Option Attribute :=
  Attribute.find? f.attributes name

/-- The word that introduces a value at module scope. -/
inductive GlobalKind where
  | var
  | override
  | const
  deriving DecidableEq, Repr, Inhabited

def GlobalKind.keyword : GlobalKind → String
  | var => "var"
  | override => "override"
  | const => "const"

/-- A declaration at module scope. -/
inductive Declaration where
  | struct (decl : StructDecl)
  | alias_ (decl : AliasDecl)
  | value (kind : GlobalKind) (decl : VarDecl)
  | function (decl : Function)
  | constAssert (condition : Expr)
  | enable (names : List String)
  | requires (names : List String)
  | diagnostic (severity rule : String)
  deriving Inhabited

/-- A whole shader module. -/
structure Program where
  declarations : List Declaration
  deriving Inhabited

namespace Program

def functions (p : Program) : List Function :=
  p.declarations.filterMap fun
    | .function f => some f
    | _ => none

def structs (p : Program) : List StructDecl :=
  p.declarations.filterMap fun
    | .struct s => some s
    | _ => none

def aliases (p : Program) : List AliasDecl :=
  p.declarations.filterMap fun
    | .alias_ a => some a
    | _ => none

/-- The declared values of one kind, in order. -/
def values (p : Program) (kind : GlobalKind) : List VarDecl :=
  p.declarations.filterMap fun
    | .value k v => if k = kind then some v else none
    | _ => none

end Program

end Wgsl
