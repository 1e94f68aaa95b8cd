import Wgsl.Text.Blank
import Wgsl.Tree.Program

/-! # Program text

Prints a tree back as compact shader text: whole modules, single declarations and statements, and
expressions. Statements with blocks are headed by one line, and blocks are indented by two spaces.
Node numbers can be shown behind every expression.
-/

namespace Wgsl
set_option autoImplicit false

mutual

/-- The text of an expression; with `ids`, each node is followed by `#` and its number. -/
def Expr.render (ids : Bool) : Expr → String
  | .literal mark value => Expr.tagged ids mark value.text
  | .var mark name => Expr.tagged ids mark name
  | .binary mark op lhs rhs =>
    Expr.tagged ids mark (Expr.render ids lhs ++ " " ++ op.symbol ++ " " ++ Expr.render ids rhs)
  | .unary mark op operand => Expr.tagged ids mark (op.symbol ++ Expr.render ids operand)
  | .call mark name args =>
    Expr.tagged ids mark (name ++ "(" ++ ", ".intercalate (Expr.renderList ids args) ++ ")")
  | .construct mark type args =>
    Expr.tagged ids mark (type.text ++ "(" ++ ", ".intercalate (Expr.renderList ids args) ++ ")")
  | .bitcast mark type value =>
    Expr.tagged ids mark ("bitcast<" ++ type.text ++ ">(" ++ Expr.render ids value ++ ")")
  | .index mark base i =>
    Expr.tagged ids mark (Expr.render ids base ++ "[" ++ Expr.render ids i ++ "]")
  | .member mark base name => Expr.tagged ids mark (Expr.render ids base ++ "." ++ name)
  | .group mark inner => Expr.tagged ids mark ("(" ++ Expr.render ids inner ++ ")")

/-- The texts of a list of expressions. -/
def Expr.renderList (ids : Bool) : List Expr → List String
  | [] => []
  | e :: r => Expr.render ids e :: Expr.renderList ids r

/-- The text with the number behind it, if numbers are shown. -/
def Expr.tagged (ids : Bool) (mark : Mark) (text : String) : String :=
  if ids then text ++ "#" ++ toString mark.id else text

end

/-- The text of an expression. -/
def Expr.text (e : Expr) : String := e.render false

/-- A condition in exactly one pair of parentheses of its own. -/
def Expr.renderCondition (ids : Bool) (e : Expr) : String :=
  match e with
  | .group .. => e.render ids
  | _ => "(" ++ e.render ids ++ ")"

/-- An attribute with its arguments. -/
def Attribute.text (a : Attribute) : String :=
  if a.args.isEmpty then "@" ++ a.name
  else "@" ++ a.name ++ "(" ++ ", ".intercalate (a.args.map Expr.text) ++ ")"

/-- Attributes, each followed by a space. -/
def Attribute.listText (attributes : List Attribute) : String :=
  String.join (attributes.map fun a => a.text ++ " ")

/-- A declaration of a value, without its semicolon. -/
def VarDecl.render (ids : Bool) (keyword : String) (v : VarDecl) : String :=
  let space := match v.storage, v.access with
    | some storage, some access => "<" ++ storage ++ ", " ++ access ++ ">"
    | some storage, none => "<" ++ storage ++ ">"
    | none, _ => ""
  Attribute.listText v.attributes ++ keyword ++ space ++ " " ++ v.name ++
    (v.type.elim "" fun t => ": " ++ t.text) ++
    (v.value.elim "" fun e => " = " ++ e.render ids)

/-- A simple statement, without its semicolon. -/
def SimpleStmt.render (ids : Bool) (s : SimpleStmt) : String :=
  match s.action with
  | .declare kind decl => decl.render ids kind.keyword
  | .assign op target value =>
    target.elim "_" (Expr.render ids) ++ " " ++ op.symbol ++ " " ++ value.render ids
  | .increment op target => target.render ids ++ op.symbol
  | .call callee => callee.render ids

/-- The first line of a statement, without brace or semicolon. -/
def Stmt.header (ids : Bool) : Stmt → String
  | .simple s => s.render ids
  | .ifElse _ condition _ _ => "if " ++ condition.renderCondition ids
  | .forLoop _ init condition update _ =>
    "for (" ++ init.elim "" (SimpleStmt.render ids) ++ "; " ++ condition.elim "" (Expr.render ids) ++
      "; " ++ update.elim "" (SimpleStmt.render ids) ++ ") "
  | .whileLoop _ condition _ => "while " ++ condition.renderCondition ids ++ " "
  | .loop .. => "loop"
  | .switch _ selector _ => "switch " ++ selector.renderCondition ids
  | .block .. => ""
  | .return_ _ (some e) => "return " ++ e.render ids
  | .return_ _ none => "return"
  | .break_ _ => "break"
  | .breakIf _ condition => "break if " ++ condition.render ids
  | .continue_ _ => "continue"
  | .discard _ => "discard"
  | .constAssert _ condition => "const_assert " ++ condition.render ids

/-- One-line text of a statement; a statement with blocks is shown by its header. -/
def Stmt.text (s : Stmt) : String := Text.trimRight (s.header false)

/-- A line at a depth of indentation. -/
def indented (depth : Nat) (line : String) : String :=
  String.ofList (List.replicate (2 * depth) ' ') ++ line

mutual

/-- The lines of a statement. -/
def Stmt.lines (ids : Bool) (depth : Nat) : Stmt → List String
  | .ifElse line condition body rest =>
    indented depth ((Stmt.ifElse line condition [] .none).header ids ++ " \x7b") ::
      (Stmt.blockLines ids (depth + 1) body ++ ElseChain.lines ids depth rest ++
        [indented depth "\x7d"])
  | .forLoop line init condition update body =>
    indented depth ((Stmt.forLoop line init condition update []).header ids ++ "\x7b") ::
      (Stmt.blockLines ids (depth + 1) body ++ [indented depth "\x7d"])
  | .whileLoop line condition body =>
    indented depth ((Stmt.whileLoop line condition []).header ids ++ "\x7b") ::
      (Stmt.blockLines ids (depth + 1) body ++ [indented depth "\x7d"])
  | .block _ body =>
    indented depth "\x7b" :: (Stmt.blockLines ids (depth + 1) body ++ [indented depth "\x7d"])
  | .loop _ body continuing =>
    indented depth "loop \x7b" ::
      (Stmt.blockLines ids (depth + 1) body ++ Stmt.continuingLines ids (depth + 1) continuing ++
        [indented depth "\x7d"])
  | .switch line selector clauses =>
    indented depth ((Stmt.switch line selector []).header ids ++ " \x7b") ::
      (SwitchClause.lines ids (depth + 1) clauses ++ [indented depth "\x7d"])
  | s => [indented depth (s.header ids ++ ";")]

/-- The lines of the statements of a block. -/
def Stmt.blockLines (ids : Bool) (depth : Nat) : List Stmt → List String
  | [] => []
  | s :: r => Stmt.lines ids depth s ++ Stmt.blockLines ids depth r

def Stmt.continuingLines (ids : Bool) (depth : Nat) : Option (List Stmt) → List String
  | none => []
  | some body =>
    indented depth "continuing \x7b" ::
      (Stmt.blockLines ids (depth + 1) body ++ [indented depth "\x7d"])

def ElseChain.lines (ids : Bool) (depth : Nat) : ElseChain → List String
  | .none => []
  | .else_ body => indented depth "\x7d else \x7b" :: Stmt.blockLines ids (depth + 1) body
  | .elseIf _ condition body rest =>
    indented depth ("\x7d else if (" ++ condition.render ids ++ ") \x7b") ::
      (Stmt.blockLines ids (depth + 1) body ++ ElseChain.lines ids depth rest)

def SwitchClause.lines (ids : Bool) (depth : Nat) : List SwitchClause → List String
  | [] => []
  | .mk _ selectors isDefault body :: r =>
    let labels := Expr.renderList ids selectors ++ (if isDefault then ["default"] else [])
    indented depth ("case " ++ ", ".intercalate labels ++ ": \x7b") ::
      (Stmt.blockLines ids (depth + 1) body ++ [indented depth "\x7d"] ++
        SwitchClause.lines ids depth r)

end

/-- A member or argument with its attributes. -/
def Field.text (f : Field) : String :=
  Attribute.listText f.attributes ++ f.name ++ ": " ++ f.type.text

/-- The first line of a function, without its brace. -/
def Function.header (f : Function) : String :=
  Attribute.listText f.attributes ++ "fn " ++ f.name ++ "(" ++
    ", ".intercalate (f.args.map Field.text) ++ ")" ++
    (f.returnType.elim "" fun t => " -> " ++ Attribute.listText f.returnAttributes ++ t.text)

/-- The lines of a declaration. -/
def Declaration.lines (ids : Bool) : Declaration → List String
  | .struct s =>
    ("struct " ++ s.name ++ " \x7b") ::
      (s.members.map (fun m => indented 1 (m.text ++ ",")) ++ ["\x7d"])
  | .alias_ a => ["alias " ++ a.name ++ " = " ++ a.type.text ++ ";"]
  | .value kind v => [v.render ids kind.keyword ++ ";"]
  | .function f => (f.header ++ " \x7b") :: (Stmt.blockLines ids 1 f.body ++ ["\x7d"])
  | .constAssert condition => ["const_assert " ++ condition.render ids ++ ";"]
  | .enable names => ["enable " ++ ", ".intercalate names ++ ";"]
  | .requires names => ["requires " ++ ", ".intercalate names ++ ";"]
  | .diagnostic severity rule => ["diagnostic(" ++ severity ++ ", " ++ rule ++ ");"]

/-- Lines, each ended. -/
def endedLines (lines : List String) : String := String.join (lines.map (· ++ "\n"))

/-- The text of a declaration without the last semicolon or line end. -/
def Declaration.text (d : Declaration) : String :=
  let cs := Text.dropTrailing Text.isBlank (endedLines (d.lines false)).toList
  String.ofList (Text.dropTrailing (· == ';') cs)

/-- The text of a module. -/
def Program.text (p : Program) (ids : Bool) : String :=
  endedLines (p.declarations.flatMap (Declaration.lines ids))

end Wgsl
