import Wgsl.CommandLine.Argument
import Wgsl.Text.Plain

/-! # Requests

What a list of arguments asks for. The first argument names the command, and the others are a file,
flags, and options with values. They are read from left to right, and the first one that does not
fit is the complaint; a value that stands apart from its option is looked at after the argument that
follows it.
-/

namespace Wgsl.CommandLine
set_option autoImplicit false

/-- The commands. -/
inductive CommandName where
  | check
  | reflect
  | run
  | step
  deriving DecidableEq, Repr, Inhabited

/-- An option without a value. -/
inductive Flag where
  | ast
  | ids
  | into
  deriving DecidableEq, Repr, Inhabited

def Flag.name : Flag → String
  | ast => "ast"
  | ids => "ids"
  | into => "into"

/-- The flag as complaints show it. -/
def Flag.shown (f : Flag) : String := "--" ++ f.name

namespace CommandName

def ofName? : String → Option CommandName
  | "check" => some check
  | "reflect" => some reflect
  | "run" => some run
  | "step" => some step
  | _ => none

/-- The flags of a command. -/
def flags : CommandName → List Flag
  | check => [.ast, .ids]
  | step => [.into]
  | _ => []

/-- The options with values of a command. -/
def options : CommandName → List ValueOption
  | run | step => [.entry, .dispatch, .buffer, .override]
  | _ => []

def flag? (c : CommandName) (name : String) : Option Flag := c.flags.find? fun f => f.name = name

def option? (c : CommandName) (name : String) : Option ValueOption :=
  c.options.find? fun o => o.name = name

end CommandName

/-! ## Complaints -/

/-- Why the arguments are no request. -/
inductive UsageFault where
  | noCommand
  | unknownCommand (name : String)
  | unexpected (arg : String)
  | unexpectedValue (flag : Flag) (value : String)
  | repeatedFlag (flag : Flag)
  | repeatedOption (option : ValueOption)
  | noValue (shown : String)
  | invalidValue (option : ValueOption) (value : String) (fault : ValueFault)
  | missing
  deriving DecidableEq, Repr

/-- A text in single quotes, set off from what is around it. -/
def citation (s : String) : String := "'" ++ Text.emphasized s ++ "'"

/-- The wording of a complaint about the arguments, for a terminal. -/
def UsageFault.message : UsageFault → String
  | noCommand => "a subcommand is required but none was provided"
  | unknownCommand name => "unrecognized subcommand " ++ citation name
  | unexpected arg => "unexpected argument " ++ citation arg ++ " found"
  | unexpectedValue flag value =>
    "unexpected value " ++ citation value ++ " for " ++ citation flag.shown ++
      " found; no more were expected"
  | repeatedFlag flag => "the argument " ++ citation flag.shown ++ " cannot be used multiple times"
  | repeatedOption option =>
    "the argument " ++ citation option.shown ++ " cannot be used multiple times"
  | noValue shown => "a value is required for " ++ citation shown ++ " but none was supplied"
  | invalidValue option value fault =>
    "invalid value " ++ citation value ++ " for " ++ citation option.shown ++ ": " ++ fault.message
  | missing => "the following required arguments were not provided:"

/-- What is printed for a complaint: the complaint and a hint, as plain text. A control sequence that
the complaint leaves open takes part of the hint with it. -/
def UsageFault.report (f : UsageFault) : String :=
  Text.plain ("error: " ++ f.message ++ "\n\nFor more information, try " ++ citation "--help" ++
    ".\n")

/-! ## Requests -/

/-- A dispatch that is asked for. -/
structure DispatchRequest where
  file : String
  entry : String := "main"
  workgroups : Extent := ⟨1, 1, 1⟩
  buffers : List BufferArgument := []
  overrides : Config := []

inductive Request where
  | check (file : String) (showProgram showIds : Bool)
  | reflect (file : String)
  | run (dispatch : DispatchRequest)
  | step (dispatch : DispatchRequest) (enterCalls : Bool)

/-- The file of a request. -/
def Request.file : Request → String
  | check file _ _ | reflect file => file
  | run d | step d _ => d.file

/-! ## Reading arguments -/

/-- What the arguments read so far have set. -/
structure Settings where
  file : Option String := none
  flags : List Flag := []
  entry : Option String := none
  workgroups : Option Extent := none
  buffers : List BufferArgument := []
  overrides : Config := []

/-- What is read but not taken in yet. A file, or a value that stands apart from its option, waits
until the next argument is known to fit: if that one does not, it is the complaint. -/
inductive Waiting where
  | nothing
  | file (path : String)
  | option (option : ValueOption) (value : Option String)

def Waiting.isFile : Waiting → Bool
  | file _ => true
  | nothing | option _ _ => false

/-- What an argument looks like. -/
inductive ArgumentForm where
  | file (path : String)
  | flag (flag : Flag)
  | option (option : ValueOption) (attached : Option String)
  /-- What follows is not read as options. -/
  | endOfOptions

/-- An argument that begins with two dashes, given by what follows them. -/
def longForm (c : CommandName) (body : List Char) : Except UsageFault ArgumentForm :=
  let name := String.ofList (body.takeWhile (· ≠ '='))
  let attached := match body.dropWhile (· ≠ '=') with
    | [] => none
    | _ :: v => some (String.ofList v)
  match c.option? name, c.flag? name, attached with
  | some o, _, v => .ok (.option o v)
  | none, some f, none => .ok (.flag f)
  | none, some f, some v => .error (.unexpectedValue f v)
  | none, none, _ => .error (.unexpected ("--" ++ name))

/-- The form of an argument. The entry point has a short option, whose value may be attached to it
with or without `=`. -/
def argumentForm (c : CommandName) (arg : String) : Except UsageFault ArgumentForm :=
  match arg.toList with
  | ['-', '-'] => .ok .endOfOptions
  | '-' :: '-' :: body => longForm c body
  | '-' :: letter :: body =>
    if letter = 'e' ∧ c.options.contains .entry then
      .ok (.option .entry (match body with
        | [] => none
        | '=' :: v => some (String.ofList v)
        | v => some (String.ofList v)))
    else .error (.unexpected (String.ofList ['-', letter]))
  | _ => .ok (.file arg)

namespace Settings

def withFlag (s : Settings) (f : Flag) : Except UsageFault Settings :=
  if s.flags.contains f then .error (.repeatedFlag f) else .ok { s with flags := f :: s.flags }

/-- Takes the value of an option. Buffers and overrides may be given many times. -/
def withValue (s : Settings) (o : ValueOption) (value : String) : Except UsageFault Settings :=
  let refused (fault : ValueFault) : UsageFault := .invalidValue o value fault
  match o with
  | .entry =>
    if s.entry.isSome then .error (.repeatedOption o) else .ok { s with entry := some value }
  | .dispatch => do
    if s.workgroups.isSome then throw (.repeatedOption o)
    let counts ← (readCounts value).mapError refused
    return { s with workgroups := some counts }
  | .buffer => do
    let b ← (readBuffer value).mapError refused
    return { s with buffers := s.buffers ++ [b] }
  | .override => do
    let (name, v) ← (readOverride value).mapError refused
    return { s with overrides := s.overrides.insert name v }

/-- Takes in what waits. -/
def settle (s : Settings) : Waiting → Except UsageFault Settings
  | .nothing => .ok s
  | .file path =>
    if path.isEmpty then .error (.noValue "<FILE>") else .ok { s with file := some path }
  | .option o none => .error (.noValue o.shown)
  | .option o (some value) => s.withValue o value

/-- Whether a file is read already. -/
def hasFile (s : Settings) (waiting : Waiting) : Bool := s.file.isSome || waiting.isFile

/-- Reads arguments that are all files, of which there is one. -/
def readFiles (s : Settings) (waiting : Waiting) : List String → Except UsageFault Settings
  | [] => s.settle waiting
  | path :: rest =>
    if s.hasFile waiting then .error (.unexpected path)
    else do
      let s ← s.settle waiting
      s.readFiles (.file path) rest

/-- Reads the arguments that follow the command. An option without an attached value takes the next
argument, unless that looks like an option. -/
def read (c : CommandName) (s : Settings) (waiting : Waiting) :
    List String → Except UsageFault Settings
  | [] => s.settle waiting
  | arg :: rest =>
    match argumentForm c arg, waiting with
    | .error fault, _ => .error fault
    | .ok .endOfOptions, waiting => s.readFiles waiting rest
    | .ok (.file value), .option o none => s.read c (.option o (some value)) rest
    | .ok (.file path), waiting =>
      if s.hasFile waiting then .error (.unexpected path)
      else do
        let s ← s.settle waiting
        s.read c (.file path) rest
    | .ok (.flag f), waiting => do
      let s ← (← s.settle waiting).withFlag f
      s.read c .nothing rest
    | .ok (.option o none), waiting => do
      let s ← s.settle waiting
      s.read c (.option o none) rest
    | .ok (.option o (some value)), waiting => do
      let s ← (← s.settle waiting).withValue o value
      s.read c .nothing rest

/-- The dispatch that the settings describe. -/
def dispatch (s : Settings) (file : String) : DispatchRequest where
  file
  entry := s.entry.getD "main"
  workgroups := s.workgroups.getD ⟨1, 1, 1⟩
  buffers := s.buffers
  overrides := s.overrides

/-- The request that the settings describe. Node identities are shown only with the program. -/
def request (s : Settings) (c : CommandName) : Except UsageFault Request :=
  match s.file with
  | none => .error .missing
  | some file =>
    let given (f : Flag) : Bool := s.flags.contains f
    match c with
    | .check =>
      if given .ids && !given .ast then .error .missing
      else .ok (.check file (given .ast) (given .ids))
    | .reflect => .ok (.reflect file)
    | .run => .ok (.run (s.dispatch file))
    | .step => .ok (.step (s.dispatch file) (given .into))

end Settings

/-- The request that a list of arguments spells. -/
def Request.ofArguments : List String → Except UsageFault Request
  | [] => .error .noCommand
  | name :: args =>
    match CommandName.ofName? name with
    | some c => do (← ({} : Settings).read c .nothing args).request c
    | none =>
      match argumentForm .reflect name with
      | .error fault => .error fault
      | .ok _ => .error (.unknownCommand name)

end Wgsl.CommandLine
