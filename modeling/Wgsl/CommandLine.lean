import Wgsl.CommandLine.Report
import Wgsl.CommandLine.Request
import Wgsl.Print

/-! # The command line

Commands on shader files: `check` parses one, `reflect` shows what it offers to its host, `run`
dispatches an entry point and shows the bound buffers, and `step` does so one command at a time.

`respond` is the whole tool as a function: from the arguments and the file to the exit code and the
two texts that are printed.
-/

namespace Wgsl.CommandLine
set_option autoImplicit false

/-- What a run of the tool leaves: its exit code and what it prints. -/
structure Outcome where
  code : Nat
  output : String
  errors : String
  deriving DecidableEq, Repr, Inhabited

namespace Outcome

/-- A finished request, with its warnings. -/
def finished (lines : List String) (warnings : List RunError) : Outcome :=
  ⟨0, endedLines lines, endedLines (warnings.map fun w => "warning: " ++ w.message)⟩

/-- A failed request, after what was printed before. A constant that cannot be computed aborts the
tool. -/
def failed (lines : List String) (f : Failure) : Outcome :=
  let code := if f = .fault .emptyClamp then 101 else 1
  ⟨code, endedLines lines, endedLines ["Error: " ++ f.message]⟩

/-- Arguments that are no request. -/
def misused (fault : UsageFault) : Outcome := ⟨2, "", fault.report⟩

/-- The outcome of a request that prints nothing before it fails. -/
def ofExcept : Except Failure Outcome → Outcome
  | .ok o => o
  | .error f => failed [] f

end Outcome

/-! ## Checking and reflecting -/

/-- Parses a module and says how many declarations it has, perhaps after the module itself. -/
def check (file : String) (showProgram showIds : Bool) (source : String) :
    Except Failure Outcome := do
  let p ← (Program.ofSource source).mapError .fault
  let verdict :=
    file ++ ": ok (" ++ toString p.declarations.length ++ " declarations)"
  let text := if showProgram then p.text showIds else ""
  return { Outcome.finished [verdict] [] with output := text ++ endedLines [verdict] }

/-- Shows what a module offers to its host. -/
def reflect (source : String) : Except Failure Outcome := do
  let r ← (Reflection.ofSource source).mapError .fault
  return .finished (reflectionLines r) []

/-! ## Running -/

/-- Puts the buffers into their slots, each in the kind of number that its variable is made of. -/
def bindBuffers (r : Reflection) (buffers : List BufferArgument) : Except Failure BindGroups :=
  buffers.foldlM (fun g b =>
    match r.findResource? b.slot.group b.slot.binding with
    | none => .error (.unknownBinding b.slot)
    | some v =>
      let bytes := encode (elementKind v) b.values
      .ok (g.insert b.slot (if b.uniform then .uniform bytes else .storage bytes))) {}

/-- A dispatch whose buffers are bound. -/
structure Prepared where
  reflection : Reflection
  groups : BindGroups
  shader : Shader
  machine : Machine

/-- Reflects the module, binds the buffers and gets the module ready to run. -/
def prepare (d : DispatchRequest) (source : String) : Except Failure Prepared := do
  let reflection ← (Reflection.ofSource source).mapError .fault
  let groups ← bindBuffers reflection d.buffers
  let p ← (Program.ofSource source).mapError .fault
  let (shader, layouts) ← (Shader.ofProgram p).mapError .fault
  return { reflection, groups, shader, machine := { layouts } }

/-- Runs a dispatch and shows its buffers. -/
def run (d : DispatchRequest) (source : String) : Except Failure Outcome := do
  let p ← prepare d source
  let dispatch := Attempt.dispatch p.shader d.entry d.workgroups p.groups d.overrides
  let (outcome, m) ← (dispatch.run.run p.machine).mapError .fault
  let groups ← outcome.mapError .fault
  return .finished (d.buffers.flatMap (bufferLines p.reflection groups)) m.diagnostics.toList

/-! ## Stepping -/

/-- More steps than any session takes. -/
def stepLimit : Nat := Nat.pow 2 62

/-- Steps until no command is left, at most a number of times. Gives the lines of all steps, the
last first, and the fault that ended them early. -/
def steps (s : Shader) (enterCalls : Bool) :
    Nat → List String → Step (List String × Option Fault)
  | 0, lines => return (lines, none)
  | limit + 1, lines => do
    let command := (← get).currentCommand?
    match ← Step.next s enterCalls with
    | .error f => return (lines, some f)
    | .ok false => return (lines, none)
    | .ok true =>
      let frames := (← get).states.map frameLine
      steps s enterCalls limit (frames.reverse ++ (command.map commandLine).toList ++ lines)

/-- Steps through a dispatch and shows each step, then the buffers. -/
def stepThrough (d : DispatchRequest) (enterCalls : Bool) (p : Prepared) : Step Outcome := do
  match ← Step.beginDispatch p.shader d.entry d.workgroups p.groups d.overrides with
  | .error f => return .failed [] (.fault f)
  | .ok () =>
    let (reversed, fault?) ← steps p.shader enterCalls stepLimit []
    let lines := reversed.reverse
    match fault? with
    | some f => return .failed lines (.fault f)
    | none =>
      let warnings := (← get).machine.diagnostics.toList
      let groups ← Step.finish
      return .finished (lines ++ d.buffers.flatMap (bufferLines p.reflection groups)) warnings

/-- Runs a dispatch one command at a time. -/
def step (d : DispatchRequest) (enterCalls : Bool) (source : String) : Except Failure Outcome := do
  let p ← prepare d source
  let (outcome, _) ← ((stepThrough d enterCalls p).run { machine := p.machine }).mapError .fault
  return outcome

/-! ## The tool -/

/-- Answers a request on the text of its file. -/
def Request.respond (source : String) : Request → Except Failure Outcome
  | .check file showProgram showIds => CommandLine.check file showProgram showIds source
  | .reflect _ => CommandLine.reflect source
  | .run d => CommandLine.run d source
  | .step d enterCalls => CommandLine.step d enterCalls source

/-- The outcome of a request, given the text of its file if there is one. -/
def Request.outcome (r : Request) (source? : Option String) : Outcome :=
  match source? with
  | some source => .ofExcept (r.respond source)
  | none => .failed [] .noSuchFile

/-- The whole tool, over the files that there are. -/
def respond (args : List String) (readFile? : String → Option String) : Outcome :=
  match Request.ofArguments args with
  | .error fault => .misused fault
  | .ok r => r.outcome (readFile? r.file)

end Wgsl.CommandLine
