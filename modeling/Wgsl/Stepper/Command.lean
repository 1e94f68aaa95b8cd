import Wgsl.Machine.Module
import Wgsl.Print

/-! # Commands

For stepping, the body of a function is laid out as a list of commands. Simple statements stay as
they are, `if` chains become conditional jumps within the list, and blocks, loops and clauses hold
lists of their own.

Jumps go by position in the list that they stand in. The commands of a `continuing` part follow
those of its loop body, with jumps counted from the start of the part.
-/

namespace Wgsl
set_option autoImplicit false

mutual

/-- A step of a function body. -/
inductive Command where
  | simple (stmt : SimpleStmt)
  | constAssert (line : Nat) (condition : Expr)
  | discard (line : Nat)
  /-- Commands with a scope of their own. -/
  | block (commands : List Command)
  | jump (target : Nat)
  /-- Jumps when the condition does not hold. -/
  | branch (line : Nat) (condition : Expr) (target : Nat)
  /-- Commands that are repeated; `continue` goes to the target. -/
  | loop (commands : List Command) (continueTarget : Nat)
  | switch (line : Nat) (selector : Expr) (clauses : List ClauseCommands)
  | return_ (line : Nat) (value : Option Expr)
  | break_ (line : Nat)
  /-- Leaves the loop when the condition holds, or when it does not if it is the condition of the
  loop itself. -/
  | breakIf (line : Nat) (condition : Expr) (negated : Bool)
  | continue_ (line : Nat)
  /-- A declaration at module scope. -/
  | declaration (decl : Declaration)

/-- A clause of a `switch`. -/
inductive ClauseCommands where
  | mk (selectors : List Expr) (isDefault : Bool) (commands : List Command)

end

instance : Inhabited Command := ⟨.break_ 0⟩

namespace ClauseCommands

def selectors : ClauseCommands → List Expr
  | mk s _ _ => s

def isDefault : ClauseCommands → Bool
  | mk _ d _ => d

def commands : ClauseCommands → List Command
  | mk _ _ c => c

end ClauseCommands

/-! ## Laying out -/

/-- The number of commands that follow the first branch of an `if`. -/
def ElseChain.commandCount : ElseChain → Nat
  | .none => 0
  | .else_ _ => 1
  | .elseIf _ _ _ rest => 3 + rest.commandCount

/-- The command of an optional simple statement. -/
def Command.ofSimple? (stmt : Option SimpleStmt) : List Command := stmt.toList.map .simple

/-- The command that leaves a loop when its condition fails. -/
def Command.ofLoopCondition? (line : Nat) (condition : Option Expr) : List Command :=
  condition.toList.map fun c => .breakIf line c true

mutual

/-- The commands of a statement that stands at a position of its list. -/
def Stmt.commands (position : Nat) : Stmt → List Command
  | .simple stmt => [.simple stmt]
  | .ifElse line condition body rest =>
    let finish := position + 3 + rest.commandCount
    .branch line condition (position + 3) :: .block (Stmt.listCommands 0 body) :: .jump finish ::
      ElseChain.commands (position + 3) finish rest
  | .forLoop line init condition update body =>
    let test := Command.ofLoopCondition? line condition
    let commands := test ++ .block (Stmt.listCommands 0 body) :: Command.ofSimple? update
    [.block (Command.ofSimple? init ++ [.loop commands (test.length + 1)])]
  | .whileLoop line condition body =>
    [.loop [.breakIf line condition true, .block (Stmt.listCommands 0 body)] 0]
  | .loop _ body continuing =>
    let commands := Stmt.listCommands 0 body
    [.loop (commands ++ Stmt.continuingCommands continuing) commands.length]
  | .switch line selector clauses => [.switch line selector (SwitchClause.listCommands clauses)]
  | .block _ body => [.block (Stmt.listCommands 0 body)]
  | .return_ line value => [.return_ line value]
  | .break_ line => [.break_ line]
  | .breakIf line condition => [.breakIf line condition false]
  | .continue_ line => [.continue_ line]
  | .discard line => [.discard line]
  | .constAssert line condition => [.constAssert line condition]

/-- The commands of statements, the first of which stands at a position. -/
def Stmt.listCommands (position : Nat) : List Stmt → List Command
  | [] => []
  | stmt :: rest =>
    let commands := Stmt.commands position stmt
    commands ++ Stmt.listCommands (position + commands.length) rest

def Stmt.continuingCommands : Option (List Stmt) → List Command
  | none => []
  | some body => Stmt.listCommands 0 body

/-- The commands of the rest of an `if` chain that ends at `finish`. -/
def ElseChain.commands (position finish : Nat) : ElseChain → List Command
  | .none => []
  | .else_ body => [.block (Stmt.listCommands 0 body)]
  | .elseIf line condition body rest =>
    .branch line condition (position + 3) :: .block (Stmt.listCommands 0 body) :: .jump finish ::
      ElseChain.commands (position + 3) finish rest

def SwitchClause.listCommands : List SwitchClause → List ClauseCommands
  | [] => []
  | .mk _ selectors isDefault body :: rest =>
    .mk selectors isDefault (Stmt.listCommands 0 body) :: SwitchClause.listCommands rest

end

/-- The commands of a function body. -/
def Function.commands (f : Function) : List Command := Stmt.listCommands 0 f.body

namespace Command

/-- The line of a command; commands that only lead on have none. -/
def line : Command → Nat
  | simple stmt => stmt.line
  | constAssert l _ | discard l | branch l _ _ | switch l _ _ | return_ l _ | break_ l
  | breakIf l _ _ | continue_ l => l
  | declaration d => d.line
  | block _ | jump _ | loop _ _ => 0

/-- The expressions that a command evaluates, in the order of the text. -/
def expressions : Command → List Expr
  | simple stmt =>
    match stmt.action with
    | .declare _ v => v.value.toList
    | .assign _ target value => target.toList ++ [value]
    | .increment _ target => [target]
    | .call callee => [callee]
  | constAssert _ c => [c]
  | branch _ c _ => [c]
  | breakIf _ c _ => [c]
  | switch _ selector _ => [selector]
  | return_ _ value => value.toList
  | _ => []

/-! ## Showing commands -/

/-- The text of a command; commands that only lead on have none. -/
def text : Command → String
  | simple stmt => (Stmt.simple stmt).text
  | constAssert l c => (Stmt.constAssert l c).text
  | discard l => (Stmt.discard l).text
  | branch _ c _ => "if " ++ c.renderCondition false
  | breakIf _ c true => "while " ++ c.renderCondition false
  | breakIf _ c false => "break if " ++ c.text
  | switch _ selector _ => "switch " ++ selector.renderCondition false
  | return_ _ (some e) => "return " ++ e.text
  | return_ _ none => "return"
  | break_ _ => "break"
  | continue_ _ => "continue"
  | declaration d => d.text
  | block _ | jump _ | loop _ _ => ""

end Command

/-- A command as it is shown: its line and its text. -/
structure CommandInfo where
  line : Nat
  text : String
  deriving DecidableEq, Repr, Inhabited

/-- What a command has to show. -/
inductive Outlook where
  | jump (target : Nat)
  /-- The first command shown when this one runs, if there is any. -/
  | shown (info : Option CommandInfo)

/-- Follows commands from a position to the first that shows something, over a limited number of
commands. -/
def Outlook.follow (outlooks : List Outlook) : Nat → Nat → Option CommandInfo
  | 0, _ => none
  | budget + 1, position =>
    match outlooks[position]? with
    | none => none
    | some (.jump target) => follow outlooks budget target
    | some (.shown (some info)) => some info
    | some (.shown none) => follow outlooks budget (position + 1)

/-- The first command shown from a position on. A list of `n` commands is left after `n + 1` of
them. -/
def Outlook.firstFrom (outlooks : List Outlook) (position : Nat) : Option CommandInfo :=
  follow outlooks (outlooks.length + 1) position

mutual

/-- What a command has to show. -/
def Command.outlook : Command → Outlook
  | .jump target => .jump target
  | .block commands => .shown (Outlook.firstFrom (Command.outlooks commands) 0)
  | .loop commands _ => .shown (Outlook.firstFrom (Command.outlooks commands) 0)
  | c => .shown (some ⟨c.line, c.text⟩)

def Command.outlooks : List Command → List Outlook
  | [] => []
  | c :: rest => Command.outlook c :: Command.outlooks rest

end

/-- The first command shown from a position of a list on. -/
def Command.nextShown? (commands : List Command) (position : Nat) : Option CommandInfo :=
  Outlook.firstFrom (Command.outlooks commands) position

/-! ## Calls inside commands -/

/-- A call of a declared function that is to be stepped into. -/
structure PendingCall where
  id : NodeId
  line : Nat
  function : Function
  args : List Expr

mutual

/-- The first call of a declared function in the order of evaluation that has no known outcome. The
right side of `&&` and `||` may never run, so its calls are left out. -/
def Expr.pendingCall? (s : Shader) (known : NodeId → Bool) : Expr → Option PendingCall
  | .call mark name args =>
    if known mark.id then none
    else
      (Expr.firstPendingCall? s known args).orElse fun _ =>
        (s.function? name).map fun f => ⟨mark.id, mark.line, f, args⟩
  | .binary _ .logicalAnd lhs _ => Expr.pendingCall? s known lhs
  | .binary _ .logicalOr lhs _ => Expr.pendingCall? s known lhs
  | .binary _ _ lhs rhs =>
    (Expr.pendingCall? s known lhs).orElse fun _ => Expr.pendingCall? s known rhs
  | .index _ base i =>
    (Expr.pendingCall? s known base).orElse fun _ => Expr.pendingCall? s known i
  | .unary _ _ operand => Expr.pendingCall? s known operand
  | .member _ base _ => Expr.pendingCall? s known base
  | .group _ inner => Expr.pendingCall? s known inner
  | .bitcast _ _ value => Expr.pendingCall? s known value
  | .construct _ _ args => Expr.firstPendingCall? s known args
  | .literal .. => none
  | .var .. => none

def Expr.firstPendingCall? (s : Shader) (known : NodeId → Bool) : List Expr → Option PendingCall
  | [] => none
  | e :: rest =>
    (Expr.pendingCall? s known e).orElse fun _ => Expr.firstPendingCall? s known rest

end

/-- The first call to step into before a command runs. -/
def Command.pendingCall? (s : Shader) (known : NodeId → Bool) (c : Command) : Option PendingCall :=
  c.expressions.findSome? fun e => e.pendingCall? s known

end Wgsl
