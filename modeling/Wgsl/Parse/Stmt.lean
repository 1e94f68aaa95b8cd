import Wgsl.Parse.Expr

/-! # Parsing statements

Statements nest through blocks; each block takes its opening brace, so the number of tokens ahead
bounds the nesting. Constants declared in a block are known up to its closing brace; those declared
directly in a `loop` or in the header of a `for` are known up to the end of the enclosing block.
-/

namespace Wgsl.Parser
set_option autoImplicit false

/-! ## Declarations of values -/

/-- `: type`, if it stands here. -/
def typeAnnotation : Parser (Option TypeExpr) := do
  if ← accept .colon then return some (← typeExpr) else return none

/-- `= value`, if it stands here. -/
def initializer : Parser (Option Expr) := do
  if ← accept .equal then return some (← expression) else return none

/-- The declaration behind `var`. -/
def varDecl (attributes : List Attribute) : Parser VarDecl := do
  let line := (← expect .kwVar "to start variable").line
  let (storage, access) ← do
    if ← accept .lessThan then
      let storage ← identifier
      let access ← do
        if ← accept .comma then pure (some (← identifier)) else pure none
      let _ ← expect .greaterThan "to close address space"
      pure (some storage, access)
    else pure (none, none)
  let name ← identifier
  let type ← typeAnnotation
  let value ← initializer
  return { name, type, storage, access, value, attributes, line }

/-- The declaration behind `let` or `const`, which has an initializer. -/
def constantDecl (attributes : List Attribute) : Parser VarDecl := do
  let line := (← advance).line
  let name ← identifier
  let type ← typeAnnotation
  let _ ← expect .equal "in declaration"
  let value ← expression
  return { name, type, storage := none, access := none, value := some value, attributes, line }

/-- Makes a constant known. -/
def noteConstant (decl : VarDecl) : Parser Unit :=
  match decl.value with
  | some value =>
    modifyContext fun c => { c with constants := c.constants.insert decl.name value }
  | none => pure ()

/-! ## Simple statements -/

/-- The assignment that a token spells. -/
def assignOp : TokenKind → AssignOp
  | .plusEqual => .compound .add
  | .minusEqual => .compound .subtract
  | .timesEqual => .compound .multiply
  | .divisionEqual => .compound .divide
  | .moduloEqual => .compound .modulo
  | .andEqual => .compound .bitAnd
  | .orEqual => .compound .bitOr
  | .xorEqual => .compound .bitXor
  | .shiftLeftEqual => .compound .shiftLeft
  | .shiftRightEqual => .compound .shiftRight
  | _ => .plain

/-- What follows the target of an assignment, of counting, or a call. -/
def actionOn (target : Expr) : Parser Action := do
  let kind ← peekKind
  if kind = .plusPlus then
    let _ ← advance
    return .increment .increment target
  else if kind = .minusMinus then
    let _ ← advance
    return .increment .decrement target
  else if kind.isAssignment then
    let _ ← advance
    return .assign (assignOp kind) (some target) (← expression)
  else match target with
    | .call .. | .construct .. => return .call target
    | _ => failHere .expectedSimpleStatement

/-- A statement that may stand in the header of a `for`. -/
def simpleStmt : Parser SimpleStmt := do
  let token ← peek
  let action : Action ← match token.kind with
    | .kwVar => pure (.declare .var (← varDecl []))
    | .kwLet => pure (.declare .let_ (← constantDecl []))
    | .kwConst => do
      let decl ← constantDecl []
      noteConstant decl
      pure (.declare .const decl)
    | .underscore => do
      let _ ← advance
      let _ ← expect .equal "after '_'"
      pure (.assign .plain none (← expression))
    | _ => do actionOn (← unary)
  return { line := token.line, action }

/-! ## Statements with blocks -/

/-- Statements up to a closing brace or the end. -/
def statements (stmt : Parser (Option Stmt)) : Parser (List Stmt) :=
  List.reverse <$> loop [] fun body => do
    if (← check .braceRight) || (← atEnd) then return .done body
    return .next ((← stmt).toList ++ body)

/-- A block and the line of its closing brace. What the block makes known is forgotten at its
end. -/
def compound (stmt : Parser (Option Stmt)) : Parser (List Stmt × Nat) := do
  let _ ← expect .braceLeft "to open block"
  let outer := (← get).context.constants
  let body ← statements stmt
  let line := (← expect .braceRight "to close block").line
  modifyContext fun c => { c with constants := outer }
  return (body, line)

/-- A block. -/
def block (stmt : Parser (Option Stmt)) : Parser (List Stmt) := Prod.fst <$> compound stmt

/-- A branch of an `if` chain that has been read. -/
structure Branch where
  line : Nat
  condition : Expr
  body : List Stmt

/-- The chain made of `else if` branches, first one first, and its end. -/
def chainOf (branches : List Branch) (last : ElseChain) : ElseChain :=
  branches.foldr (fun b rest => .elseIf b.line b.condition b.body rest) last

/-- What follows the first branch of an `if`. -/
def elseChain (stmt : Parser (Option Stmt)) : Parser ElseChain := do
  let (branches, last) ← loop (([] : List Branch), ElseChain.none) fun (branches, last) => do
    unless ← accept .kwElse do return .done (branches, last)
    if ← check .kwIf then
      let line := (← advance).line
      let condition ← expression
      let body ← block stmt
      return .next (⟨line, condition, body⟩ :: branches, last)
    else return .done (branches, .else_ (← block stmt))
  return chainOf branches.reverse last

/-- The selectors of a `case`, latest first, and whether `default` is among them. -/
def caseSelectors : Parser (List Expr × Bool) :=
  loop ([], false) fun (selectors, isDefault) => do
    let found ← do
      if ← accept .kwDefault then pure (selectors, true)
      else pure ((← expression) :: selectors, isDefault)
    if ← accept .comma then
      if (← check .colon) || (← check .braceLeft) then return .done found else return .next found
    else return .done found

/-- A clause of a `switch`. -/
def switchClause (stmt : Parser (Option Stmt)) : Parser SwitchClause := do
  let line := (← peek).line
  let (selectors, isDefault) ← do
    if ← accept .kwDefault then pure ([], true)
    else
      let _ ← expect .kwCase "to start switch clause"
      caseSelectors
  let _ ← accept .colon
  let body ← block stmt
  return .mk line selectors.reverse isDefault body

def ifStmt (line : Nat) (stmt : Parser (Option Stmt)) : Parser Stmt := do
  let _ ← expect .kwIf "to start if"
  let condition ← expression
  let body ← block stmt
  return .ifElse line condition body (← elseChain stmt)

def switchStmt (line : Nat) (stmt : Parser (Option Stmt)) : Parser Stmt := do
  let _ ← expect .kwSwitch "to start switch"
  let selector ← expression
  let _ ← attributes
  let _ ← expect .braceLeft "to open switch body"
  let clauses ← loop [] fun (clauses : List SwitchClause) => do
    if (← check .braceRight) || (← atEnd) then return .done clauses
    return .next ((← switchClause stmt) :: clauses)
  let _ ← expect .braceRight "to close switch body"
  return .switch line selector clauses.reverse

/-- A `loop`: its statements, and maybe a `continuing` block as the last thing in it. -/
def loopStmt (line : Nat) (stmt : Parser (Option Stmt)) : Parser Stmt := do
  let _ ← expect .kwLoop "to start loop"
  let _ ← attributes
  let _ ← expect .braceLeft "to open loop body"
  let (body, continuing) ← loop (([] : List Stmt), (none : Option (List Stmt)))
    fun (body, continuing) => do
      if (← check .braceRight) || (← atEnd) then return .done (body, continuing)
      if ← accept .kwContinuing then return .done (body, some (← block stmt))
      return .next ((← stmt).toList ++ body, continuing)
  let _ ← expect .braceRight "to close loop body"
  return .loop line body.reverse continuing

/-- An optional part of a `for` header, ended by a token of the kind. -/
def headerPart {α : Type} (close : TokenKind) (purpose : String) (part : Parser α) :
    Parser (Option α) := do
  let found ← do
    if ← check close then pure none else pure (some (← part))
  let _ ← expect close purpose
  return found

def forStmt (line : Nat) (stmt : Parser (Option Stmt)) : Parser Stmt := do
  let _ ← expect .kwFor "to start for"
  let _ ← expect .parenLeft "after for"
  let init ← headerPart .semicolon "after for initializer" simpleStmt
  let condition ← headerPart .semicolon "after for condition" expression
  let update ← headerPart .parenRight "to close for header" simpleStmt
  return .forLoop line init condition update (← block stmt)

/-- One statement over a parser for nested ones; a lone semicolon is none. Attributes of statements
carry no meaning here. -/
def stmtStep (stmt : Parser (Option Stmt)) : Parser (Option Stmt) := do
  let _ ← attributes
  let token ← peek
  let line := token.line
  let ended (purpose : String) (s : Stmt) : Parser (Option Stmt) := do
    let _ ← expect .semicolon purpose
    return some s
  match token.kind with
  | .semicolon =>
    let _ ← advance
    return none
  | .kwReturn =>
    let _ ← advance
    let value ← do
      if ← check .semicolon then pure none else pure (some (← expression))
    ended "after return" (.return_ line value)
  | .kwIf => some <$> ifStmt line stmt
  | .kwSwitch => some <$> switchStmt line stmt
  | .kwLoop => some <$> loopStmt line stmt
  | .kwFor => some <$> forStmt line stmt
  | .kwWhile =>
    let _ ← advance
    let condition ← expression
    return some (.whileLoop line condition (← block stmt))
  | .kwBreak =>
    let _ ← advance
    if ← accept .kwIf then ended "after break" (.breakIf line (← expression))
    else ended "after break" (.break_ line)
  | .kwContinue =>
    let _ ← advance
    ended "after continue" (.continue_ line)
  | .kwDiscard =>
    let _ ← advance
    ended "after discard" (.discard line)
  | .kwConstAssert =>
    let _ ← advance
    ended "after const_assert" (.constAssert line (← expression))
  | .braceLeft => return some (.block line (← block stmt))
  | _ =>
    let s ← simpleStmt
    ended "after statement" (.simple s)

/-- One statement, at most `depth` blocks deep. -/
def stmtWithin : Nat → Parser (Option Stmt)
  | 0 => failHere .nestedTooDeep
  | depth + 1 => fun s => stmtStep (stmtWithin depth) s

/-- The body of a function and the line of its closing brace. -/
def functionBody : Parser (List Stmt × Nat) := do
  compound (stmtWithin (← get).budget)

end Wgsl.Parser
