import Wgsl.Machine.Builtin
import Wgsl.Value.Construct

/-! # Evaluating expressions

An expression has a value, and some expressions name a place. Calls of declared functions are
answered by a `Caller`, so that evaluation is structural in the expression and the depth of calls is
bounded elsewhere.
-/

namespace Wgsl
set_option autoImplicit false

/-- How calls of declared functions are answered. -/
abbrev Caller := Function → List Value → Eval Value

namespace Expr

/-- Whether an expression names a place that can be read as it is. -/
def isPlace : Expr → Bool
  | var .. => true
  | unary _ .deref _ => true
  | Expr.index _ base _ => isPlace base
  | member _ base _ => isPlace base
  | group _ inner => isPlace inner
  | _ => false

end Expr

namespace Eval

/-- The value of a name. -/
def readName (scope : ScopeId) (name : String) : Eval Value := do
  let m ← get
  match m.scopes.lookup scope name with
  | some (_, slot) => m.slotValue slot
  | none => throw (Machine.unknown name 0)

/-- The place of a name: a pointer stands for what it points to. -/
def placeOfName (scope : ScopeId) (name : String) (line : Nat) : Eval Place := do
  match (← get).scopes.lookup scope name with
  | some (_, .view view) => return .ofView view
  | some (_, .value (.pointer p)) => return p
  | some (owner, .value _) => return .ofVariable owner name
  | none => throw (Machine.unknown name line)

/-- The place that a value points to. -/
def dereference : Value → Run Place
  | .pointer p => pure p
  | v => throw (.mismatch ("cannot dereference " ++ v.typeName))

/-- A call by name: a declared function, else a structure, else a built-in function. -/
def callNamed (s : Shader) (call : Caller) (name : String) (args : List Value) : Eval Value := do
  match s.function? name with
  | some f => call f args
  | none =>
    match ← structInfo? name with
    | some t => Value.construct t false args
    | none => callBuiltin name args

/-- The kind that a type stands for in a cast of bits. -/
def castKind (type : TypeExpr) : Eval ScalarKind := do
  match (← typeInfo type).scalarKind? with
  | some kind => return kind
  | none => throw (.mismatch ("cannot bitcast to " ++ type.text))

mutual

/-- The value of an expression in a scope. -/
def expr (s : Shader) (call : Caller) (scope : ScopeId) : Expr → Eval Value
  | .literal _ value => return .ofLiteral value
  | .var k name => located k.line (readName scope name)
  | .binary k op lhs rhs => located k.line do
    let l ← expr s call scope lhs
    match op, l with
    | .logicalAnd, .bool false => return .bool false
    | .logicalOr, .bool true => return .bool true
    | _, _ => Value.binary op l (← expr s call scope rhs)
  | .unary k .addressOf operand => located k.line do
    return .pointer (← place s call scope operand)
  | .unary k .deref operand => located k.line do
    readPlace (← dereference (← expr s call scope operand))
  | .unary k op operand => located k.line do
    Value.unary op (← expr s call scope operand)
  | .call k name args => located k.line do
    match (← get).callResults.lookup k.id with
    | some v => return v
    | none => callNamed s call name (← exprs s call scope args)
  | .construct k type args => located k.line do
    let values ← exprs s call scope args
    Value.construct (← typeInfo type) type.param?.isNone values
  | .bitcast k type value => located k.line do
    let kind ← castKind type
    Value.bitcast kind (← expr s call scope value)
  | .index k base index => located k.line do
    if base.isPlace then
      let p ← place s call scope base
      let i ← (← expr s call scope index).integer
      readPlace (p.below (.index i))
    else
      let v ← expr s call scope base
      let i ← (← expr s call scope index).integer
      v.part (.index i)
  | .member k base name => located k.line do
    if base.isPlace then
      let p ← place s call scope base
      readPlace (p.below (.member name))
    else
      let v ← expr s call scope base
      v.part (.member name)
  | .group k inner => located k.line (expr s call scope inner)

/-- The values of expressions, from left to right. -/
def exprs (s : Shader) (call : Caller) (scope : ScopeId) : List Expr → Eval (List Value)
  | [] => return []
  | e :: rest => do
    let v ← expr s call scope e
    return v :: (← exprs s call scope rest)

/-- The place that an expression names. -/
def place (s : Shader) (call : Caller) (scope : ScopeId) : Expr → Eval Place
  | .var k name => placeOfName scope name k.line
  | .index _ base index => do
    let p ← place s call scope base
    let i ← (← expr s call scope index).integer
    return p.below (.index i)
  | .member _ base name => do
    let p ← place s call scope base
    return p.below (.member name)
  | .group _ inner => place s call scope inner
  | .unary _ .deref operand => do dereference (← expr s call scope operand)
  | _ => throw (.mismatch "expression is not assignable")

end

end Eval

end Wgsl
