import Wgsl.Machine.Dispatch
import Wgsl.Stepper.Command

/-! # Stepping sessions

A session runs a dispatch, or the declarations of a module, one visible command at a time. It keeps
a stack of frames, the innermost first: one for each function that is active, and one for each block,
loop or clause inside it. Every frame has a scope of its own, opened with the frame and closed with
it.

A step runs commands that show nothing until one visible command has run. When it steps into calls,
a command whose expressions hold calls of declared functions first has each of them run in a frame
of its own; the outcomes are kept in the caller's frame and used when the command itself runs.
-/

namespace Wgsl
set_option autoImplicit false

/-- How many commands one step may run without a visible one among them. -/
def maxSilentCommands : Nat := 65536

/-- What a frame runs. -/
inductive FrameKind where
  | function
  | block
  | loop (continueTarget : Nat)
  | switch
  deriving DecidableEq, Repr, Inhabited

/-- A list of commands that is being run. -/
structure Frame where
  kind : FrameKind
  name : String
  /-- The function that the frame belongs to. -/
  function : Option Function
  commands : List Command
  /-- The position of the next command. -/
  cursor : Nat := 0
  scope : ScopeId
  /-- The call that a stepped-into function computes. -/
  call : Option NodeId := none
  /-- The outcomes of calls that were stepped through for the next command. -/
  results : List (NodeId × Value) := []
  /-- The line of the last command that ran here. -/
  line : Nat
  deriving Inhabited

namespace Frame

/-- The next command. -/
def next? (f : Frame) : Option Command := f.commands[f.cursor]?

def advanced (f : Frame) : Frame := { f with cursor := f.cursor + 1 }

/-- Keeps the outcome of a call. -/
def note (f : Frame) (call : NodeId) (v : Value) : Frame :=
  { f with results := (call, v) :: f.results }

/-- Whether the outcome of a call is kept. -/
def knows (f : Frame) (call : NodeId) : Bool := (f.results.lookup call).isSome

end Frame

/-- A stepping session. -/
structure Session where
  machine : Machine
  /-- The active frames, the innermost first. -/
  frames : List Frame := []
  plan : Option DispatchPlan := none
  nextInvocation : Nat := 0
  invocationScope : Option ScopeId := none
  /-- The host's resources that are not bound. -/
  groups : BindGroups := {}
  config : Config := []
  deriving Inhabited

/-! ## Frames and scopes -/

namespace Session

/-- Changes the innermost frame. -/
def onTop (change : Frame → Frame) (t : Session) : Session :=
  match t.frames with
  | [] => t
  | f :: rest => { t with frames := change f :: rest }

/-- Sets the scopes of the machine. -/
def withScopes (t : Session) (scopes : ScopeArena Slot) : Session :=
  { t with machine := { t.machine with scopes } }

/-- Opens a frame inside the innermost one. -/
def pushFrame (kind : FrameKind) (commands : List Command) (t : Session) : Session :=
  match t.frames with
  | [] => t
  | parent :: _ =>
    let (scopes, scope) := t.machine.scopes.push parent.scope
    let frame : Frame := {
      kind, commands, scope
      name := parent.name
      function := parent.function
      line := parent.line }
    { t.withScopes scopes with frames := frame :: t.frames }

/-- Closes the innermost frame. -/
def popFrame (t : Session) : Session :=
  match t.frames with
  | [] => t
  | f :: rest => { t.withScopes (t.machine.scopes.pop f.scope) with frames := rest }

/-- Closes the frames inside the innermost function and takes the frame of the function itself,
whose scope stays open. -/
def unwind (scopes : ScopeArena Slot) :
    List Frame → ScopeArena Slot × Option (Frame × List Frame)
  | [] => (scopes, none)
  | f :: rest =>
    if f.kind = .function then (scopes, some (f, rest)) else unwind (scopes.pop f.scope) rest

/-- Closes frames up to and including the innermost loop or clause; none is found if a function
comes first. -/
def leave (scopes : ScopeArena Slot) : List Frame → ScopeArena Slot × List Frame × Bool
  | [] => (scopes, [], true)
  | f :: rest =>
    match f.kind with
    | .function => (scopes, f :: rest, false)
    | .block => leave (scopes.pop f.scope) rest
    | .loop _ | .switch => (scopes.pop f.scope, rest, true)

/-- Closes frames down to the innermost loop, which goes on at its target; none is found if a
function comes first. -/
def restart (scopes : ScopeArena Slot) : List Frame → ScopeArena Slot × List Frame × Bool
  | [] => (scopes, [], true)
  | f :: rest =>
    match f.kind with
    | .function => (scopes, f :: rest, false)
    | .block | .switch => restart (scopes.pop f.scope) rest
    | .loop target => (scopes, { f with cursor := target } :: rest, true)

/-- Ends the invocation with all its frames. -/
def endInvocation (t : Session) : Session :=
  let scopes := t.frames.foldl (fun scopes f => scopes.pop f.scope) t.machine.scopes
  let scopes := match t.invocationScope with
    | some scope => scopes.pop scope
    | none => scopes
  let callResults := if t.invocationScope.isSome then [] else t.machine.callResults
  { t with
    machine := { t.machine with scopes, callResults }
    frames := []
    invocationScope := none }

end Session

/-! ## Running commands -/

/-- What a visible command asks of the frames. -/
inductive Move where
  | next
  | jump (target : Nat)
  | break_
  | continue_
  | return_ (value : Option Value)
  | enter (commands : List Command)
  | endInvocation

namespace Eval

/-- A condition of a branch or a loop; if it fails it is reported and does not hold. -/
def reportedCondition (s : Shader) (scope : ScopeId) (e : Expr) : Exec Bool := do
  match ← (condition s (call s) scope e).run with
  | .ok b => return b
  | .error error =>
    if (← get).discarded then return false
    Exec.report (error.at_ e.line)
    return false

/-- The commands of the first clause that is selected. -/
def selectedCommands? (s : Shader) (scope : ScopeId) (selector : Value) :
    List ClauseCommands → Eval (Option (List Command))
  | [] => return none
  | c :: rest => do
    if ← isSelected s (call s) scope selector c.selectors then return some c.commands
    else selectedCommands? s scope selector rest

/-- What follows a statement that was run as a whole. -/
def afterStatement : Flow → Move
  | .discard => .endInvocation
  | _ => .next

/-- Runs a visible command. -/
def command (s : Shader) (config : Config) (scope : ScopeId) : Command → Eval Move
  | .simple stmt => do return afterStatement (← ofExec (simple s (call s) scope stmt))
  | .constAssert line e => do
    let flow ← ofExec (stmt s (call s) scope (.constAssert line e))
    return afterStatement flow
  | .discard line => do
    let flow ← ofExec (stmt s (call s) scope (.discard line))
    return afterStatement flow
  | .branch _ e target => do
    if ← ofExec (reportedCondition s scope e) then return .next else return .jump target
  | .breakIf _ e negated => do
    let holds ← ofExec (reportedCondition s scope e)
    return if holds != negated then .break_ else .next
  | .break_ _ => return .break_
  | .continue_ _ => return .continue_
  | .return_ _ none => return .return_ none
  | .return_ _ (some e) => do return .return_ (some (← expr s (call s) scope e))
  | .switch _ selector clauses => do
    let value ← expr s (call s) scope selector
    match ← selectedCommands? s scope value clauses with
    | some commands => return .enter commands
    | none =>
      match clauses.find? ClauseCommands.isDefault with
      | some c => return .enter c.commands
      | none => return .next
  | .declaration d => do
    ofExec (Exec.declaration s config d)
    return .next
  | .block _ | .jump _ | .loop .. => return .next

end Eval

/-! ## Steps -/

/-- A computation on a session. -/
abbrev Step := StateT Session (Except Fault)

namespace Step

variable {α : Type}

/-- A computation on the machine of the session. -/
def onMachine (x : Exec α) : Step α := fun t => do
  let (a, machine) ← x.run t.machine
  return (a, { t with machine })

/-- Begins the next invocation of the dispatch, if there is one. -/
def startInvocation (s : Shader) : Step Bool := do
  let t ← get
  match t.plan with
  | none => return false
  | some plan =>
    if plan.invocationCount ≤ t.nextInvocation then return false
    else
      let scope ← onMachine (Exec.beginInvocation s plan t.nextInvocation)
      let frame : Frame := {
        kind := .function
        name := plan.entry.name
        function := some plan.entry
        commands := plan.entry.commands
        scope
        line := plan.entry.startLine }
      modify fun t => { t with
        nextInvocation := t.nextInvocation + 1
        invocationScope := some scope
        frames := frame :: t.frames }
      return true

/-- The value that the frame of a function hands to its caller. -/
def frameValue (f : Frame) (value : Option Value) : Exec Value := do
  match value, f.function with
  | some v, some function =>
    match ← (Eval.returnValue function v).run with
    | .ok v => return v
    | .error e =>
      Exec.report (e.at_ f.line)
      return .void
  | v, _ => return v.getD .void

/-- Ends the innermost function and hands its value to the frame that called it. The outermost
function ends the invocation. -/
def finishCall (value : Option Value) : Step Unit := do
  let t ← get
  match Session.unwind t.machine.scopes t.frames with
  | (scopes, none) => set { t.withScopes scopes with frames := [] }
  | (scopes, some (f, callers)) =>
    set { t.withScopes scopes with frames := callers }
    let v ← onMachine (frameValue f value)
    if callers.isEmpty then modify Session.endInvocation
    else
      onMachine (Exec.popScope f.scope)
      match f.call with
      | some id => modify (Session.onTop fun caller => caller.note id v)
      | none => return ()

/-- Ends the innermost frame, whose commands have all run; a loop begins again. -/
def endFrame (f : Frame) : Step Unit :=
  match f.kind with
  | .loop _ => modify (Session.onTop fun f => { f with cursor := 0 })
  | .function => finishCall none
  | .block | .switch => modify Session.popFrame

/-- Replaces scopes and frames, and reports where the frames had nowhere to go. -/
def reframe (line : Nat) (complaint : String) (outcome : ScopeArena Slot × List Frame × Bool) :
    Step Unit := do
  let (scopes, frames, found) := outcome
  modify fun t => { t.withScopes scopes with frames }
  if !found then onMachine (Exec.report ((RunError.other complaint).at_ line))

/-- Does what a visible command asks for. -/
def apply (line : Nat) : Move → Step Unit
  | .next => return ()
  | .jump target => modify (Session.onTop fun f => { f with cursor := target })
  | .break_ => do
    let t ← get
    reframe line "break outside of a loop or switch" (Session.leave t.machine.scopes t.frames)
  | .continue_ => do
    let t ← get
    reframe line "continue outside of a loop" (Session.restart t.machine.scopes t.frames)
  | .return_ value => finishCall value
  | .enter commands => modify (Session.pushFrame .switch commands)
  | .endInvocation => modify Session.endInvocation

/-- Runs a visible command of the innermost frame. The outcomes of its calls are used up. -/
def runVisible (s : Shader) (f : Frame) (c : Command) : Step Unit := do
  let line := c.line
  modify (Session.onTop fun f => { f.advanced with line, results := [] })
  let config := (← get).config
  let outcome ← onMachine do
    modify fun m => { m with callResults := f.results }
    let outcome ← (Eval.command s config f.scope c).run
    modify fun m => { m with callResults := [] }
    return outcome
  if (← get).machine.discarded then apply line .endInvocation
  else
    match outcome with
    | .ok move => apply line move
    | .error e => onMachine (Exec.report (e.at_ line))

/-- Evaluates the arguments of a call and opens the scope of the called function. -/
def bindPending (s : Shader) (f : Frame) (call : PendingCall) : Exec (Run ScopeId) := do
  modify fun m => { m with callResults := f.results }
  let bound : Eval ScopeId := do
    let args ← Eval.exprs s (Eval.call s) f.scope call.args
    Eval.bindCall call.function args
  let outcome ← bound.run
  modify fun m => { m with callResults := [] }
  return outcome

/-- Opens a frame for the first call that a command waits for. A call that cannot begin is reported
and counts as done. -/
def enterCall (s : Shader) (f : Frame) (c : Command) : Step Bool := do
  match c.pendingCall? s f.knows with
  | none => return false
  | some call =>
    match ← onMachine (bindPending s f call) with
    | .error e =>
      modify (Session.onTop fun f => f.note call.id .void)
      onMachine (Exec.report (e.at_ call.line))
      return false
    | .ok scope =>
      let function := call.function
      let frame : Frame := {
        kind := .function
        name := function.name
        function := some function
        commands := function.commands
        scope
        call := some call.id
        line := function.startLine }
      modify fun t => { t with frames := frame :: t.frames }
      return true

/-- Runs a visible command, or steps into the first call that it waits for. -/
def visible (s : Shader) (enterCalls : Bool) (f : Frame) (c : Command) : Step Unit := do
  if enterCalls then
    if ← enterCall s f c then return ()
  match (← get).frames with
  | [] => return ()
  | f :: _ => runVisible s f c

/-- Runs commands until a visible one has run, at most as many as the budget. Gives whether there
was one. -/
def within (s : Shader) (enterCalls : Bool) : Nat → Step (Except Fault Bool)
  | 0 => return .error (.dispatch (.noStatementReached maxSilentCommands))
  | budget + 1 => do
    match (← get).frames with
    | [] => if ← startInvocation s then within s enterCalls budget else return .ok false
    | f :: _ =>
      match f.next? with
      | none =>
        endFrame f
        within s enterCalls budget
      | some (.jump target) =>
        modify (Session.onTop fun f => { f with cursor := target })
        within s enterCalls budget
      | some (.block commands) =>
        modify fun t => (t.onTop Frame.advanced).pushFrame .block commands
        within s enterCalls budget
      | some (.loop commands target) =>
        modify fun t => (t.onTop Frame.advanced).pushFrame (.loop target) commands
        within s enterCalls budget
      | some c =>
        visible s enterCalls f c
        return .ok true

/-- One step. Gives whether a command has run; none has once all invocations have ended. -/
def next (s : Shader) (enterCalls : Bool) : Step (Except Fault Bool) :=
  within s enterCalls maxSilentCommands

/-! ## Beginning and ending -/

/-- Begins to step through a dispatch. -/
def beginDispatch (s : Shader) (entry : String) (workgroups : Extent) (groups : BindGroups)
    (config : Config) : Step (Except Fault Unit) := do
  modify fun t => { t with frames := [], groups, config }
  match ← onMachine (Attempt.prepare s entry workgroups groups config).run with
  | .error f => return .error f
  | .ok (plan, rest) =>
    modify fun t => { t with plan := some plan, groups := rest, nextInvocation := 0 }
    let _ ← startInvocation s
    return .ok ()

/-- The declarations that are run when a module starts. -/
def isRun : Declaration → Bool
  | .value .. | .constAssert _ => true
  | _ => false

/-- Begins to step through the declarations of the module. -/
def beginModule (s : Shader) (config : Config) : Step Unit := do
  let frame : Frame := {
    kind := .function
    name := "<module>"
    function := none
    commands := (s.program.declarations.filter isRun).map .declaration
    scope := ScopeArena.root
    line := 0 }
  modify fun t => { t with machine := t.machine.reset, config, plan := none, frames := [frame] }

/-- Ends the session and gives the host's resources. -/
def finish : Step BindGroups := do
  modify Session.endInvocation
  let groups := (← get).groups
  onMachine (Exec.finish groups)

end Step

/-! ## Looking at a session -/

/-- The variables of one active function. -/
structure FrameState where
  name : String
  line : Nat
  /-- Outer variables first. -/
  locals : List (String × Value)

namespace Session

/-- The next visible command in the active frames, if a frame decides it. -/
def nextInFrames? : List Frame → Option (Option CommandInfo)
  | [] => none
  | f :: rest =>
    if f.cursor < f.commands.length then
      match Command.nextShown? f.commands f.cursor with
      | some info => some (some info)
      | none => nextInFrames? rest
    else
      match f.kind with
      | .loop _ => some (Command.nextShown? f.commands 0)
      | _ => nextInFrames? rest

/-- The next visible command, also beyond the ends of frames and in the next invocation. -/
def currentCommand? (t : Session) : Option CommandInfo :=
  match nextInFrames? t.frames with
  | some info => info
  | none =>
    match t.plan with
    | some plan =>
      if t.nextInvocation < plan.invocationCount then Command.nextShown? plan.entry.commands 0
      else none
    | none => none

/-- The scopes from an inner one outward to an outer one, or to the root. -/
def scopeChain (scopes : ScopeArena Slot) (outer : ScopeId) : Nat → ScopeId → List ScopeId
  | 0, _ => []
  | budget + 1, id =>
    id :: if id = outer ∨ id = ScopeArena.root then []
      else match scopes.parent? id with
        | some parent => scopeChain scopes outer budget parent
        | none => []

/-- The variables of scopes, given from the inside out; outer ones come first and inner ones hide
outer ones of the same name. -/
def visibleVariables (m : Machine) (hidden : List String) : List ScopeId → List (String × Value)
  | [] => []
  | id :: rest =>
    let bindings := ((m.scopes.scope? id).map Scope.bindings).getD []
    let fresh := bindings.filter fun (name, _) => !hidden.contains name
    let values := fresh.map fun (name, slot) => (name, (m.slotValue slot).toOption.getD .void)
    visibleVariables m (hidden ++ fresh.map Prod.fst) rest ++ values

/-- The line at which the innermost frame of a function stands. -/
def currentLine (f : Frame) : Nat :=
  match f.next? with
  | some c => if 0 < c.line then c.line else f.line
  | none => f.line

/-- The frames of the innermost function and those behind them. -/
def splitFunction : List Frame → Option (Frame × List Frame)
  | [] => none
  | f :: rest => if f.kind = .function then some (f, rest) else splitFunction rest

/-- The state of every active function, the innermost first. The number bounds how many there are. -/
def statesWithin (m : Machine) : Nat → List Frame → List FrameState
  | 0, _ => []
  | _, [] => []
  | budget + 1, innermost :: rest =>
    match splitFunction (innermost :: rest) with
    | none => []
    | some (f, callers) =>
      let chain := scopeChain m.scopes f.scope (m.scopes.depth + 1) innermost.scope
      ⟨f.name, currentLine innermost, visibleVariables m [] chain⟩ :: statesWithin m budget callers

/-- The state of every active function, the innermost first. -/
def states (t : Session) : List FrameState := statesWithin t.machine t.frames.length t.frames

end Session

end Wgsl
