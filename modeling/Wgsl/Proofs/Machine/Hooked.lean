import Wgsl.Machine.Dispatch

/-! # An interpreter with hooks

Some runs differ from the interpreter in a few places only: one looks at the machine around every
expression, one refuses to begin a statement after a discard, and one follows loops and calls as they
come. Here the interpreter stands once more, with a hook in each of these places; such a run is this
interpreter with hooks of its own.

* `Hooks`: what a run does in its own way. By default it does what the interpreter does.
* `Hooks.expr`, `Hooks.stmt`: expressions and statements.
* `Hooks.callWithin`: a call, followed as far as a number says.
* `Hooks.start`, `Hooks.dispatch`: a start and a dispatch.
-/

namespace Wgsl
set_option autoImplicit false

open Eval (located readName readPlace placeOfName dereference ofExec writePlace inBlock afterBody
  settled)

/-- What a run does in its own way. -/
structure Hooks where
  /-- The layout of a type. -/
  typeInfo : TypeExpr → Eval TypeInfo := Eval.typeInfo
  /-- The structure of a name. -/
  structInfo? : String → Eval (Option TypeInfo) := Eval.structInfo?
  /-- An operation on two values. -/
  binary : BinaryOp → Value → Value → Eval Value := fun op l r => Value.binary op l r
  /-- A call of a built-in function. -/
  builtin : String → List Value → Eval Value := Eval.callBuiltin
  /-- The evaluation of an expression, given what the interpreter does there. -/
  evaluated : Eval Value → Eval Value := id
  /-- A statement, given what the interpreter does there. -/
  begun : Exec Flow → Exec Flow := id
  /-- A declaration of the module or an argument, given what the interpreter does there. -/
  declared : Exec Unit → Exec Unit := id
  /-- The rounds of a loop. -/
  repeated : Eval (Option Flow) → Eval Flow := Eval.repeated
  /-- A `discard` in that line. -/
  discard : Nat → Exec Flow := fun line => settled line (return .discard)
  /-- How far calls are followed. -/
  depth : Nat := maxCallDepth
  /-- A call that is not followed. -/
  tooDeep : Function → Eval Value := fun f => throw (Eval.tooDeep f)
  /-- How far structures are followed into each other. -/
  nesting : Shader → Nat := fun s => s.program.structs.length + 1
  /-- A structure that is not followed. -/
  tooNested : Eval Value := return .void

namespace Hooks

/-! ## Expressions -/

section

variable (h : Hooks)

/-- The kind that a type stands for in a cast of bits. -/
def castKind (type : TypeExpr) : Eval ScalarKind := do
  match (← h.typeInfo type).scalarKind? with
  | some kind => return kind
  | none => throw (.mismatch ("cannot bitcast to " ++ type.text))

/-- A call by name. -/
def callNamed (s : Shader) (call : Caller) (name : String) (args : List Value) : Eval Value := do
  match s.function? name with
  | some f => call f args
  | none =>
    match ← h.structInfo? name with
    | some t => Value.construct t false args
    | none => h.builtin name args

end

mutual

/-- The value of an expression in a scope. -/
def expr (h : Hooks) (s : Shader) (call : Caller) (scope : ScopeId) : Expr → Eval Value
  | .literal _ value => h.evaluated (return .ofLiteral value)
  | .var k name => h.evaluated <| located k.line (readName scope name)
  | .binary k op lhs rhs => h.evaluated <| located k.line do
    let l ← expr h s call scope lhs
    match op, l with
    | .logicalAnd, .bool false => return .bool false
    | .logicalOr, .bool true => return .bool true
    | _, _ => h.binary op l (← expr h s call scope rhs)
  | .unary k .addressOf operand => h.evaluated <| located k.line do
    return .pointer (← place h s call scope operand)
  | .unary k .deref operand => h.evaluated <| located k.line do
    readPlace (← dereference (← expr h s call scope operand))
  | .unary k op operand => h.evaluated <| located k.line do
    Value.unary op (← expr h s call scope operand)
  | .call k name args => h.evaluated <| located k.line do
    match (← get).callResults.lookup k.id with
    | some v => return v
    | none => h.callNamed s call name (← exprs h s call scope args)
  | .construct k type args => h.evaluated <| located k.line do
    let values ← exprs h s call scope args
    Value.construct (← h.typeInfo type) type.param?.isNone values
  | .bitcast k type value => h.evaluated <| located k.line do
    let kind ← h.castKind type
    Value.bitcast kind (← expr h s call scope value)
  | .index k base index => h.evaluated <| located k.line do
    if base.isPlace then
      let p ← place h s call scope base
      let i ← (← expr h s call scope index).integer
      readPlace (p.below (.index i))
    else
      let v ← expr h s call scope base
      let i ← (← expr h s call scope index).integer
      v.part (.index i)
  | .member k base name => h.evaluated <| located k.line do
    if base.isPlace then
      let p ← place h s call scope base
      readPlace (p.below (.member name))
    else
      let v ← expr h s call scope base
      v.part (.member name)
  | .group k inner => h.evaluated <| located k.line (expr h s call scope inner)

/-- The values of expressions, from left to right. -/
def exprs (h : Hooks) (s : Shader) (call : Caller) (scope : ScopeId) :
    List Expr → Eval (List Value)
  | [] => return []
  | e :: rest => do
    let v ← expr h s call scope e
    return v :: (← exprs h s call scope rest)

/-- The place that an expression names. -/
def place (h : Hooks) (s : Shader) (call : Caller) (scope : ScopeId) : Expr → Eval Place
  | .var k name => placeOfName scope name k.line
  | .index _ base index => do
    let p ← place h s call scope base
    let i ← (← expr h s call scope index).integer
    return p.below (.index i)
  | .member _ base name => do
    let p ← place h s call scope base
    return p.below (.member name)
  | .group _ inner => place h s call scope inner
  | .unary _ .deref operand => do dereference (← expr h s call scope operand)
  | _ => throw (.mismatch "expression is not assignable")

end

/-! ## Simple statements -/

section

variable (h : Hooks) (s : Shader) (call : Caller) (scope : ScopeId)

/-- The value that a declared name starts with. -/
def initialValue (v : VarDecl) : Eval Value := do
  match v.type, v.value with
  | some type, some init =>
    let t ← h.typeInfo type
    (← h.expr s call scope init).coerceTo t
  | none, some init => h.expr s call scope init
  | some type, none => return .zeroOf (← h.typeInfo type)
  | none, none => throw (.other ("'" ++ v.name ++ "' has neither type nor initializer"))

/-- Declares a name. -/
def declare (v : VarDecl) : Eval Unit :=
  ExceptT.mk do
    match ← (h.initialValue s call scope v).run with
    | .ok value =>
      Exec.bind scope v.name (.value value)
      return .ok ()
    | .error e =>
      Exec.bind scope v.name (.value .void)
      return .error e

/-- Accepts a condition that holds. -/
def constAssert (e : Expr) : Eval Unit := do
  if ← (← h.expr s call scope e).truth then return ()
  else throw ((RunError.other "const_assert failed").at_ e.line)

/-- The truth of a condition. -/
def condition (e : Expr) : Eval Bool := do
  (← h.expr s call scope e).truth

/-- The truth of the condition of a `for`. -/
def goesOn : Option Expr → Eval Bool
  | some e => h.condition s call scope e
  | none => return true

/-- The effect of a simple statement. -/
def action : Action → Eval Unit
  | .declare _ v => h.declare s call scope v
  | .assign _ none value => do let _ ← h.expr s call scope value
  | .assign op (some target) value => do
    let p ← h.place s call scope target
    let rhs ← h.expr s call scope value
    match op with
    | .plain => writePlace p rhs
    | .compound op => writePlace p (← h.binary op (← readPlace p) rhs)
  | .increment op target => do
    let p ← h.place s call scope target
    writePlace p (← h.binary op.binary (← readPlace p) (.i32 1))
  | .call callee => do let _ ← h.expr s call scope callee

/-- A simple statement. -/
def simple (stmt : SimpleStmt) : Exec Flow :=
  h.begun <| settled stmt.line do
    h.action s call scope stmt.action
    return .normal

/-- A simple statement in the header of a `for`. -/
def header : Option SimpleStmt → Exec Unit
  | none => return ()
  | some stmt => do let _ ← h.simple s call scope stmt

/-- Whether a clause of a `switch` is selected by one of its own selectors. -/
def isSelected (selector : Value) : List Expr → Eval Bool
  | [] => return false
  | e :: rest => do
    let v ← h.expr s call scope e
    if ← (← h.binary .equal selector v).truth then return true
    else isSelected selector rest

/-- The position of the first clause that is selected. -/
def selected? (selector : Value) : List SwitchClause → Eval (Option Nat)
  | [] => return none
  | c :: rest => do
    if ← h.isSelected s call scope selector c.selectors then return some 0
    else return (← selected? selector rest).map (· + 1)

/-- The position of the clause to run. -/
def chosenClause? (selector : Expr) (clauses : List SwitchClause) : Eval (Option Nat) := do
  let value ← h.expr s call scope selector
  match ← h.selected? s call scope value clauses with
  | some i => return some i
  | none => return clauses.findIdx? SwitchClause.isDefault

end

/-! ## Statements -/

mutual

/-- Runs a statement in a scope. -/
def stmt (h : Hooks) (s : Shader) (call : Caller) (scope : ScopeId) : Stmt → Exec Flow
  | .simple st => h.simple s call scope st
  | .ifElse line cond body rest => h.begun <| settled line do
    if ← h.condition s call scope cond then
      inBlock scope fun scope => stmts h s call scope body
    else elseChain h s call scope rest
  | .forLoop line init cond update body =>
    h.begun <| settled line <| Eval.inScope scope fun scope => do
      ofExec (h.header s call scope init)
      h.repeated do
        if ← h.goesOn s call scope cond then
          match afterBody (← inBlock scope fun scope => stmts h s call scope body) with
          | some flow => return some flow
          | none =>
            ofExec (h.header s call scope update)
            return none
        else return some .normal
  | .whileLoop line cond body => h.begun <| settled line <| h.repeated do
    if ← h.condition s call scope cond then
      return afterBody (← inBlock scope fun scope => stmts h s call scope body)
    else return some .normal
  | .loop line body continuing => h.begun <| settled line <| h.repeated <| ofExec do
    let flow ← Exec.inScope scope fun scope => do
      match ← stmts h s call scope body with
      | .normal => continuingPart h s call scope continuing
      | .continue_ => continuingPart h s call scope continuing
      | flow => return flow
    return afterBody flow
  | .switch line selector clauses => h.begun <| settled line do
    match ← h.chosenClause? s call scope selector clauses with
    | none => return .normal
    | some i =>
      match ← ofExec (clauseAt h s call scope clauses i) with
      | .break_ => return .normal
      | flow => return flow
  | .block line body =>
    h.begun <| settled line (inBlock scope fun scope => stmts h s call scope body)
  | .return_ line none => h.begun <| settled line (return .return_ none)
  | .return_ line (some e) =>
    h.begun <| settled line do return .return_ (some (← h.expr s call scope e))
  | .break_ line => h.begun <| settled line (return .break_)
  | .breakIf line cond => h.begun <| settled line do
    if ← h.condition s call scope cond then return .break_ else return .normal
  | .continue_ line => h.begun <| settled line (return .continue_)
  | .discard line => h.begun (h.discard line)
  | .constAssert line cond => h.begun <| settled line do
    h.constAssert s call scope cond
    return .normal

/-- Runs statements one after another until one does not end normally. -/
def stmts (h : Hooks) (s : Shader) (call : Caller) (scope : ScopeId) : List Stmt → Exec Flow
  | [] => return .normal
  | st :: rest => do
    match ← stmt h s call scope st with
    | .normal => stmts h s call scope rest
    | flow => return flow

/-- Runs the `continuing` part of a loop. -/
def continuingPart (h : Hooks) (s : Shader) (call : Caller) (scope : ScopeId) :
    Option (List Stmt) → Exec Flow
  | none => return .normal
  | some body => stmts h s call scope body

/-- Runs what follows a first branch that was not taken. -/
def elseChain (h : Hooks) (s : Shader) (call : Caller) (scope : ScopeId) : ElseChain → Eval Flow
  | .none => return .normal
  | .else_ body => inBlock scope fun scope => stmts h s call scope body
  | .elseIf _ cond body rest => do
    if ← h.condition s call scope cond then
      inBlock scope fun scope => stmts h s call scope body
    else elseChain h s call scope rest

/-- Runs the body of the clause at a position. -/
def clauseAt (h : Hooks) (s : Shader) (call : Caller) (scope : ScopeId) :
    List SwitchClause → Nat → Exec Flow
  | [], _ => return .normal
  | .mk _ _ _ body :: _, 0 => Exec.inScope scope fun scope => stmts h s call scope body
  | _ :: rest, i + 1 => clauseAt h s call scope rest i

end

/-! ## Calls -/

section

variable (h : Hooks)

/-- Opens a scope below the root that holds the arguments of a call. -/
def bindCall (f : Function) (args : List Value) : Eval ScopeId := do
  if args.length ≠ f.args.length then
    throw (RunCause.arity f.name f.args.length args.length).unplaced
  let values ← (f.args.zip args).mapM fun (param, v) => do
    return (param.name, ← v.coerceTo (← h.typeInfo param.type))
  ofExec do
    let scope ← Exec.pushScope ScopeArena.root
    values.forM fun (name, v) => Exec.bind scope name (.value v)
    return scope

/-- The value that a call gives, in the declared type. -/
def returnValue (f : Function) (v : Value) : Eval Value := do
  match f.returnType with
  | some type => v.coerceTo (← h.typeInfo type)
  | none => return v

/-- What a call gives once the body of the function has ended. -/
def callValue (f : Function) : Flow → Eval Value
  | .return_ (some v) => h.returnValue f v
  | .discard => do
    modify fun m => { m with discarded := true }
    return .void
  | _ => return .void

/-- Calls a function. The number says how far calls are followed. -/
def callWithin (s : Shader) : Nat → Caller
  | 0 => fun f _ => h.tooDeep f
  | budget + 1 => fun f args => do
    if maxCallDepth ≤ (← get).callDepth then throw (Eval.tooDeep f)
    else
      let scope ← h.bindCall f args
      let flow ← ofExec do
        let flow ← Exec.nested (h.stmts s (callWithin s budget) scope f.body)
        Exec.popScope scope
        return flow
      h.callValue f flow

/-- Calls a function. -/
def call (s : Shader) : Caller := h.callWithin s h.depth

end

/-! ## Starting a module -/

section

variable (h : Hooks) (s : Shader)

/-- The kind of an override. -/
def overrideKind? (v : VarDecl) : Eval (Option ScalarKind) := do
  match v.type, v.value with
  | some type, _ => return (← h.typeInfo type).scalarKind?
  | none, some default => return (← h.expr s (h.call s) ScopeArena.root default).scalarKind?
  | none, none => return none

/-- The value of an override. -/
def overrideValue (config : Config) (v : VarDecl) : Eval Value := do
  match config.overrideValue? v with
  | some x => return .ofDouble x ((← h.overrideKind? s v).getD .f32)
  | none =>
    match v.value, v.type with
    | some default, _ => h.expr s (h.call s) ScopeArena.root default
    | none, some type => return .zeroOf (← h.typeInfo type)
    | none, none => return .f32 .zero

/-- Declares an override. -/
def declareOverride (config : Config) (v : VarDecl) : Eval Unit := do
  let value ← h.overrideValue s config v
  let value ← match v.type with
    | some type => value.coerceTo (← h.typeInfo type)
    | none => pure value
  ofExec (Exec.bind ScopeArena.root v.name (.value value))

/-- Runs a declaration at module scope. -/
def moduleDeclaration (config : Config) : Declaration → Eval Unit
  | .value .const v => h.declare s (h.call s) ScopeArena.root v
  | .value .override v => h.declareOverride s config v
  | .value .var v => do
    if (s.reflection.resourceNamed? v.name).isNone then
      modify fun m => { m with moduleVars := m.moduleVars ++ [v] }
      h.declare s (h.call s) ScopeArena.root v
  | .constAssert e => h.constAssert s (h.call s) ScopeArena.root e
  | _ => return ()

/-- Runs a declaration at module scope and reports its error. -/
def declaration (config : Config) (d : Declaration) : Exec Unit :=
  h.declared (Exec.reporting d.line (h.moduleDeclaration s config d))

/-- Starts a module afresh. -/
def start (config : Config) : Exec Unit := do
  modify Machine.reset
  s.program.declarations.forM (h.declaration s config)

/-! ## Dispatches -/

/-- One size of a workgroup. -/
def workgroupAxis (e : Expr) : Attempt Nat := do
  let size : Eval UInt32 := do (← h.expr s (h.call s) ScopeArena.root e).unsigned
  match ← Attempt.ofExec size.run with
  | .ok n => return n.toNat
  | .error reason => Attempt.refuse (.badWorkgroupSize reason)

/-- The size of a workgroup. -/
def workgroupSize (f : Function) : Attempt Extent := do
  match f.attribute? "workgroup_size" with
  | none => Attempt.refuse (.noWorkgroupSize f.name)
  | some a =>
    match ← (a.args.take 3).mapM (h.workgroupAxis s) with
    | [x, y, z] => return ⟨x, y, z⟩
    | [x, y] => return ⟨x, y, 1⟩
    | [x] => return ⟨x, 1, 1⟩
    | _ => return ⟨1, 1, 1⟩

/-- Gets a dispatch ready. -/
def prepare (entry : String) (workgroups : Extent) (g : BindGroups) (config : Config) :
    Attempt (DispatchPlan × BindGroups) := do
  match s.reflection.layoutErrors.head? with
  | some message => throw (.layout message)
  | none => pure ()
  Attempt.ofExec (h.start s config)
  match s.function? entry with
  | none => Attempt.refuse (.entryNotFound entry)
  | some f =>
    let size ← h.workgroupSize s f
    if size.toList.contains 0 then Attempt.refuse (.zeroWorkgroupSize entry)
    let rest ← Attempt.ofExec (modifyGet fun m =>
      let (m, rest) := m.bindResources s.reflection.resources g
      (rest, m))
    return (⟨f, workgroups, size⟩, rest)

/-- The value of an argument of an entry point. The number says how far structures are followed into
each other. -/
def argument (scope : ScopeId) : Nat → List Attribute → TypeExpr → Eval Value
  | 0, _, _ => h.tooNested
  | depth + 1, attributes, type => do
    let t ← h.typeInfo type
    match (Attribute.find? attributes "builtin").bind Attribute.firstArgText? with
    | some name => (← Eval.builtinValue scope name).coerceTo t
    | none =>
      match s.program.structs.find? fun d => d.name = t.name with
      | some d =>
        let fields ← d.members.mapM fun m => do
          return (m.name, ← argument scope depth m.attributes m.type)
        return .struct t.name fields
      | none => return .zeroOf t

/-- Binds an argument of an entry point. -/
def bindArgument (entry : Function) (scope : ScopeId) (arg : Field) : Exec Unit := h.declared do
  match ← (h.argument s scope (h.nesting s) arg.attributes arg.type).run with
  | .ok v => Exec.bind scope arg.name (.value v)
  | .error e =>
    Exec.report (e.at_ entry.startLine)
    Exec.bind scope arg.name (.value .void)

/-- Gives variables of the module their initial values again. -/
def resetVariables (newWorkgroup : Bool) : Exec Unit := do
  let vars := (← get).moduleVars.filter fun v => newWorkgroup || v.storage != some "workgroup"
  vars.forM fun v =>
    h.declared (Exec.reporting v.line (h.declare s (h.call s) ScopeArena.root v))

/-- Sets up an invocation and gives the scope that its body runs in. -/
def beginInvocation (plan : DispatchPlan) (index : Nat) : Exec ScopeId := do
  let i := plan.invocation index
  h.resetVariables s (i.localIndex = 0)
  modify fun m => { m with discarded := false }
  let scope ← Exec.pushScope ScopeArena.root
  (i.builtins plan.workgroups).forM fun (name, v) => Exec.bind scope name (.value v)
  plan.entry.args.forM (h.bindArgument s plan.entry scope)
  return scope

/-- Runs one invocation. -/
def runInvocation (plan : DispatchPlan) (index : Nat) : Exec Unit := do
  let scope ← h.beginInvocation s plan index
  let _ ← h.begun (h.stmts s (h.call s) scope plan.entry.body)
  Exec.endInvocation scope

/-- Runs the given number of invocations from a number on. -/
def runInvocations (plan : DispatchPlan) : Nat → Nat → Exec Unit
  | 0, _ => return ()
  | count + 1, index => do
    h.runInvocation s plan index
    runInvocations plan count (index + 1)

/-- Runs an entry point over a grid of workgroups and gives the host's resources afterwards. -/
def dispatch (entry : String) (workgroups : Extent) (g : BindGroups) (config : Config) :
    Attempt BindGroups := do
  let (plan, rest) ← h.prepare s entry workgroups g config
  Attempt.ofExec do
    h.runInvocations s plan plan.invocationCount 0
    Exec.finish rest

end

end Hooks

end Wgsl
