import Wgsl.Machine.Expr

/-! # Running statements

A statement reports its own error and the run goes on behind it. Loops are abandoned after a fixed
number of iterations and calls below a fixed depth, so every run comes to an end: statements are
structural in the program, loops in the iterations left and calls in the depth left.
-/

namespace Wgsl
set_option autoImplicit false

/-- The iterations after which a loop is abandoned. -/
def maxLoopIterations : Nat := 1048576

/-- How deep calls may nest. -/
def maxCallDepth : Nat := 64

/-- How a statement ends. -/
inductive Flow where
  | normal
  | break_
  | continue_
  | return_ (value : Option Value)
  /-- The invocation ends. -/
  | discard
  deriving Inhabited

namespace Eval

/-! ## Simple statements -/

/-- The value that a declared name starts with. -/
def initialValue (s : Shader) (call : Caller) (scope : ScopeId) (v : VarDecl) : Eval Value := do
  match v.type, v.value with
  | some type, some init =>
    let t ← typeInfo type
    (← expr s call scope init).coerceTo t
  | none, some init => expr s call scope init
  | some type, none => return .zeroOf (← typeInfo type)
  | none, none => throw (.other ("'" ++ v.name ++ "' has neither type nor initializer"))

/-- Declares a name. After a failed initializer the name is bound to nothing of use, so that later
statements can refer to it. -/
def declare (s : Shader) (call : Caller) (scope : ScopeId) (v : VarDecl) : Eval Unit :=
  ExceptT.mk do
    match ← (initialValue s call scope v).run with
    | .ok value =>
      Exec.bind scope v.name (.value value)
      return .ok ()
    | .error e =>
      Exec.bind scope v.name (.value .void)
      return .error e

/-- Accepts a condition that holds. -/
def constAssert (s : Shader) (call : Caller) (scope : ScopeId) (e : Expr) : Eval Unit := do
  if ← (← expr s call scope e).truth then return ()
  else throw ((RunError.other "const_assert failed").at_ e.line)

/-- The truth of a condition. -/
def condition (s : Shader) (call : Caller) (scope : ScopeId) (e : Expr) : Eval Bool := do
  (← expr s call scope e).truth

/-- The truth of the condition of a `for`; without one the loop goes on. -/
def goesOn (s : Shader) (call : Caller) (scope : ScopeId) : Option Expr → Eval Bool
  | some e => condition s call scope e
  | none => return true

/-- The effect of a simple statement. -/
def action (s : Shader) (call : Caller) (scope : ScopeId) : Action → Eval Unit
  | .declare _ v => declare s call scope v
  | .assign _ none value => do let _ ← expr s call scope value
  | .assign op (some target) value => do
    let p ← place s call scope target
    let rhs ← expr s call scope value
    match op with
    | .plain => writePlace p rhs
    | .compound op => writePlace p (← Value.binary op (← readPlace p) rhs)
  | .increment op target => do
    let p ← place s call scope target
    writePlace p (← Value.binary op.binary (← readPlace p) (.i32 1))
  | .call callee => do let _ ← expr s call scope callee

/-! ## Errors and loops -/

/-- Runs a statement: its error is reported at its line and the run goes on. Once a called function
has discarded, every statement ends the invocation. -/
def settled (line : Nat) (x : Eval Flow) : Exec Flow := do
  let outcome ← x.run
  if (← get).discarded then return .discard
  match outcome with
  | .ok flow => return flow
  | .error e =>
    Exec.report (e.at_ line)
    return .normal

/-- A simple statement. -/
def simple (s : Shader) (call : Caller) (scope : ScopeId) (stmt : SimpleStmt) : Exec Flow :=
  settled stmt.line do
    action s call scope stmt.action
    return .normal

/-- A simple statement in the header of a `for`; how it ends does not matter. -/
def header (s : Shader) (call : Caller) (scope : ScopeId) : Option SimpleStmt → Exec Unit
  | none => return ()
  | some stmt => do let _ ← simple s call scope stmt

/-- Repeats a round until it says how the loop ends, for the given number of rounds at most. -/
def rounds (round : Eval (Option Flow)) : Nat → Eval Flow
  | 0 => throw (.other ("loop abandoned after " ++ toString maxLoopIterations ++ " iterations"))
  | n + 1 => do
    match ← round with
    | some flow => return flow
    | none => rounds round n

/-- A loop: its rounds are counted after the round, so one more than the limit is run. -/
def repeated (round : Eval (Option Flow)) : Eval Flow := rounds round (maxLoopIterations + 1)

/-- How a loop goes on after its body. -/
def afterBody : Flow → Option Flow
  | .normal | .continue_ => none
  | .break_ => some .normal
  | flow => some flow

/-- Whether a clause of a `switch` is selected by one of its own selectors. -/
def isSelected (s : Shader) (call : Caller) (scope : ScopeId) (selector : Value) :
    List Expr → Eval Bool
  | [] => return false
  | e :: rest => do
    let v ← expr s call scope e
    if ← (← Value.binary .equal selector v).truth then return true
    else isSelected s call scope selector rest

/-- The position of the first clause that is selected. -/
def selected? (s : Shader) (call : Caller) (scope : ScopeId) (selector : Value) :
    List SwitchClause → Eval (Option Nat)
  | [] => return none
  | c :: rest => do
    if ← isSelected s call scope selector c.selectors then return some 0
    else return (← selected? s call scope selector rest).map (· + 1)

/-- The position of the clause to run: the first selected one, else the first default. -/
def chosenClause? (s : Shader) (call : Caller) (scope : ScopeId) (selector : Expr)
    (clauses : List SwitchClause) : Eval (Option Nat) := do
  let value ← expr s call scope selector
  match ← selected? s call scope value clauses with
  | some i => return some i
  | none => return clauses.findIdx? SwitchClause.isDefault

/-! ## Statements -/

/-- Runs statements in a scope of their own. -/
def inBlock (scope : ScopeId) (body : ScopeId → Exec Flow) : Eval Flow :=
  ofExec (Exec.inScope scope body)

mutual

/-- Runs a statement in a scope. -/
def stmt (s : Shader) (call : Caller) (scope : ScopeId) : Stmt → Exec Flow
  | .simple st => simple s call scope st
  | .ifElse line cond body rest => settled line do
    if ← condition s call scope cond then
      inBlock scope fun scope => stmts s call scope body
    else elseChain s call scope rest
  | .forLoop line init cond update body => settled line <| inScope scope fun scope => do
    ofExec (header s call scope init)
    repeated do
      if ← goesOn s call scope cond then
        match afterBody (← inBlock scope fun scope => stmts s call scope body) with
        | some flow => return some flow
        | none =>
          ofExec (header s call scope update)
          return none
      else return some .normal
  | .whileLoop line cond body => settled line <| repeated do
    if ← condition s call scope cond then
      return afterBody (← inBlock scope fun scope => stmts s call scope body)
    else return some .normal
  | .loop line body continuing => settled line <| repeated <| ofExec do
    let flow ← Exec.inScope scope fun scope => do
      match ← stmts s call scope body with
      | .normal => continuingPart s call scope continuing
      | .continue_ => continuingPart s call scope continuing
      | flow => return flow
    return afterBody flow
  | .switch line selector clauses => settled line do
    match ← chosenClause? s call scope selector clauses with
    | none => return .normal
    | some i =>
      match ← ofExec (clauseAt s call scope clauses i) with
      | .break_ => return .normal
      | flow => return flow
  | .block line body => settled line (inBlock scope fun scope => stmts s call scope body)
  | .return_ line none => settled line (return .return_ none)
  | .return_ line (some e) => settled line do return .return_ (some (← expr s call scope e))
  | .break_ line => settled line (return .break_)
  | .breakIf line cond => settled line do
    if ← condition s call scope cond then return .break_ else return .normal
  | .continue_ line => settled line (return .continue_)
  | .discard line => settled line (return .discard)
  | .constAssert line cond => settled line do
    constAssert s call scope cond
    return .normal

/-- Runs statements one after another until one does not end normally. -/
def stmts (s : Shader) (call : Caller) (scope : ScopeId) : List Stmt → Exec Flow
  | [] => return .normal
  | st :: rest => do
    match ← stmt s call scope st with
    | .normal => stmts s call scope rest
    | flow => return flow

/-- Runs the `continuing` part of a loop, which sees the names of the body. -/
def continuingPart (s : Shader) (call : Caller) (scope : ScopeId) :
    Option (List Stmt) → Exec Flow
  | none => return .normal
  | some body => stmts s call scope body

/-- Runs what follows a first branch that was not taken. -/
def elseChain (s : Shader) (call : Caller) (scope : ScopeId) : ElseChain → Eval Flow
  | .none => return .normal
  | .else_ body => inBlock scope fun scope => stmts s call scope body
  | .elseIf _ cond body rest => do
    if ← condition s call scope cond then
      inBlock scope fun scope => stmts s call scope body
    else elseChain s call scope rest

/-- Runs the body of the clause at a position. -/
def clauseAt (s : Shader) (call : Caller) (scope : ScopeId) : List SwitchClause → Nat → Exec Flow
  | [], _ => return .normal
  | .mk _ _ _ body :: _, 0 => Exec.inScope scope fun scope => stmts s call scope body
  | _ :: rest, i + 1 => clauseAt s call scope rest i

end

/-! ## Calls -/

/-- Opens a scope below the root that holds the arguments of a call. -/
def bindCall (f : Function) (args : List Value) : Eval ScopeId := do
  if args.length ≠ f.args.length then
    throw (RunCause.arity f.name f.args.length args.length).unplaced
  let values ← (f.args.zip args).mapM fun (param, v) => do
    return (param.name, ← v.coerceTo (← typeInfo param.type))
  ofExec do
    let scope ← Exec.pushScope ScopeArena.root
    values.forM fun (name, v) => Exec.bind scope name (.value v)
    return scope

/-- The value that a call gives, in the declared type. -/
def returnValue (f : Function) (v : Value) : Eval Value := do
  match f.returnType with
  | some type => v.coerceTo (← typeInfo type)
  | none => return v

/-- What a call gives once the body of the function has ended. -/
def callValue (f : Function) : Flow → Eval Value
  | .return_ (some v) => returnValue f v
  | .discard => do
    modify fun m => { m with discarded := true }
    return .void
  | _ => return .void

/-- The error for a call inside too many others. -/
def tooDeep (f : Function) : RunError :=
  .other ("call depth limit reached calling '" ++ f.name ++ "'")

/-- Calls a function. Beside the depth that calls may nest to, the number only bounds how far calls
are followed. -/
def callWithin (s : Shader) : Nat → Caller
  | 0 => fun f _ => throw (tooDeep f)
  | budget + 1 => fun f args => do
    if maxCallDepth ≤ (← get).callDepth then throw (tooDeep f)
    else
      let scope ← bindCall f args
      let flow ← ofExec do
        let flow ← Exec.nested (stmts s (callWithin s budget) scope f.body)
        Exec.popScope scope
        return flow
      callValue f flow

/-- Calls a function. As many calls are followed as may nest, so the limit on the depth is met no
later than the bound. -/
def call (s : Shader) : Caller := callWithin s maxCallDepth

end Eval

end Wgsl
