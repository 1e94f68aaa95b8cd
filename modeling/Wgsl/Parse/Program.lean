import Wgsl.Parse.Stmt
import Wgsl.Token.Scan
import Wgsl.Tree.Counts

/-! # Parsing a module

Declarations one after another. At the end the array counts that did not fold where they stood are
folded again, now with every constant of the module known.
-/

namespace Wgsl
set_option autoImplicit false

namespace Parser

/-- The names behind `enable` or `requires`. -/
def directiveNames : Parser (List String) := do
  let first ← identifier
  let names ← loop [first] fun names => do
    unless ← accept .comma do return .done names
    if ← check .semicolon then return .done names
    return .next ((← identifier) :: names)
  let _ ← expect .semicolon "after directive"
  return names.reverse

/-- Severity and rule of a diagnostic control. -/
def diagnosticControl : Parser (String × String) := do
  let _ ← expect .parenLeft "after diagnostic"
  let severity ← identifier
  let _ ← expect .comma "in diagnostic control"
  let rule ← identifier
  let rule ← do
    if ← accept .period then pure (rule ++ "." ++ (← identifier)) else pure rule
  let _ ← accept .comma
  let _ ← expect .parenRight "to close diagnostic control"
  return (severity, rule)

def overrideDecl (attributes : List Attribute) : Parser VarDecl := do
  let line := (← expect .kwOverride "to start override").line
  let name ← identifier
  let type ← typeAnnotation
  let value ← initializer
  return { name, type, storage := none, access := none, value, attributes, line }

/-- A name with attributes in front and a type behind. -/
def field (purpose : String) : Parser Field := do
  let attributes ← attributes
  let name ← identifier
  let _ ← expect .colon purpose
  let type ← typeExpr
  return { name, type, attributes }

/-- A structure; its members are separated by commas or semicolons. -/
def structDecl (attributes : List Attribute) : Parser StructDecl := do
  let startLine := (← expect .kwStruct "to start struct").line
  let name ← identifier
  let _ ← expect .braceLeft "to open struct body"
  let members ← loop [] fun members => do
    if (← check .braceRight) || (← atEnd) then return .done members
    let members := (← field "after struct member name") :: members
    if ← accept .comma then return .next members
    if ← accept .semicolon then return .next members
    return .done members
  let endLine := (← expect .braceRight "to close struct body").line
  let _ ← accept .semicolon
  return { name, members := members.reverse, attributes, startLine, endLine }

def functionDecl (attributes : List Attribute) : Parser Function := do
  let startLine := (← expect .kwFn "to start function").line
  let name ← identifier
  let _ ← expect .parenLeft "to open argument list"
  let args ← commaList .parenRight (field "after argument name")
  let _ ← expect .parenRight "to close argument list"
  let (returnAttributes, returnType) ← do
    if ← accept .arrow then
      let attributes ← Parser.attributes
      pure (attributes, some (← typeExpr))
    else pure ([], none)
  let (body, endLine) ← functionBody
  return { name, args, returnType, returnAttributes, attributes, body, startLine, endLine }

/-- A declaration that may have attributes. -/
def attributedDecl : Parser Declaration := do
  let attributes ← attributes
  match ← peekKind with
  | .kwVar =>
    let decl ← varDecl attributes
    let _ ← expect .semicolon "after global variable"
    return .value .var decl
  | .kwOverride =>
    let decl ← overrideDecl attributes
    let _ ← expect .semicolon "after override declaration"
    noteConstant decl
    return .value .override decl
  | .kwConst | .kwLet =>
    let decl ← constantDecl attributes
    let _ ← expect .semicolon "after constant"
    noteConstant decl
    return .value .const decl
  | .kwAlias =>
    let line := (← advance).line
    let name ← identifier
    let _ ← expect .equal "in alias declaration"
    let type ← typeExpr
    let _ ← expect .semicolon "after alias"
    modifyContext fun c => { c with aliases := c.aliases.insert name type }
    return .alias_ { name, type, line }
  | .kwStruct =>
    let decl ← structDecl attributes
    modifyContext fun c => { c with structs := c.structs.insert decl.name decl }
    return .struct decl
  | .kwFn => return .function (← functionDecl attributes)
  | .kwConstAssert =>
    let _ ← advance
    let condition ← expression
    let _ ← expect .semicolon "after const_assert"
    return .constAssert condition
  | _ => failHere .expectedDeclaration

/-- One declaration; a lone semicolon is none. -/
def declaration : Parser (Option Declaration) := do
  match ← peekKind with
  | .semicolon =>
    let _ ← advance
    return none
  | .kwEnable =>
    let _ ← advance
    return some (.enable (← directiveNames))
  | .kwRequires =>
    let _ ← advance
    return some (.requires (← directiveNames))
  | .kwDiagnostic =>
    let _ ← advance
    let (severity, rule) ← diagnosticControl
    let _ ← expect .semicolon "after diagnostic directive"
    return some (.diagnostic severity rule)
  | _ => some <$> attributedDecl

/-- The counts that fold with every constant of the module known. -/
def lateCounts : Parser (List (NodeId × UInt32)) := do
  let context := (← get).context
  let found ← context.deferred.mapM fun (id, e) => do
    return (id, ← Expr.foldUInt32 context.constants e)
  return found.filterMap fun (id, count) => count.map fun n => (id, n)

/-- A whole module. -/
def program : Parser Program := do
  let declarations ← loop [] fun found => do
    if ← atEnd then return .done found
    return .next ((← declaration).toList ++ found)
  let counts ← lateCounts
  return Program.withCounts (fun id => counts.lookup id) ⟨declarations.reverse⟩

end Parser

/-- A module with the tables of its parse. -/
structure ParsedProgram where
  program : Program
  context : ParseContext

/-- The module that a list of tokens spells. -/
def ParsedProgram.ofTokens (tokens : List Token) : Except Fault ParsedProgram := do
  let (program, state) ← Parser.program.run (.ofTokens tokens)
  return ⟨program, state.context⟩

/-- The module that a text spells. -/
def ParsedProgram.ofSource (source : String) : Except Fault ParsedProgram := do
  ParsedProgram.ofTokens (← Token.tokenize source)

/-- The module that a text spells. -/
def Program.ofSource (source : String) : Except Fault Program :=
  (ParsedProgram.ofSource source).map ParsedProgram.program

end Wgsl
