import Wgsl.CommandLine.Argument
import Wgsl.Reflect
import Wgsl.Stepper.Session
import Wgsl.Text.Quoted

/-! # Reports

The lines that commands print: reflected modules, buffers, steps and failures.
-/

namespace Wgsl
set_option autoImplicit false

open Number (Single)

/-! ## Reflected modules -/

def ResourceKind.name : ResourceKind → String
  | uniform => "Uniform"
  | storage => "Storage"
  | texture => "Texture"
  | storageTexture => "StorageTexture"
  | sampler => "Sampler"

def Stage.keyword : Stage → String
  | vertex => "vertex"
  | fragment => "fragment"
  | compute => "compute"

def LocationKind.name : LocationKind → String
  | builtin => "Builtin"
  | location => "Location"

namespace CommandLine

/-- A size and an alignment in parentheses. -/
def extentText (size align : Nat) : String :=
  "(size " ++ toString size ++ ", align " ++ toString align ++ ")"

/-- The mark of what nothing uses. -/
def usageMark (inUse : Bool) : String := if inUse then "" else " (unused)"

/-- A structure and its members with their places. -/
def structLines (r : Reflection) (t : TypeInfo) : List String :=
  match t.shape with
  | .struct key members _ _ =>
    ("struct " ++ t.name ++ " " ++ extentText t.size t.align ++ usageMark (r.isInUse key)) ::
      members.map fun m =>
        "  " ++ Text.rightAligned 4 (toString m.offset) ++ " " ++ m.name ++ ": " ++ m.type.name ++
          " " ++ extentText m.size m.align
  | _ => []

/-- A group and its bindings. -/
def groupLines (group : Nat) (resources : List Resource) : List String :=
  ("group " ++ toString group) :: resources.map fun v =>
    "  binding " ++ toString v.binding ++ ": " ++ v.name ++ " " ++ v.kind.name ++
      v.access.elim "" (", " ++ ·) ++ " " ++ v.type.name ++ " " ++ extentText v.type.size v.type.align

def overrideLine (o : OverrideInfo) : String :=
  "override " ++ o.name ++ o.id.elim "" (fun id => " @id(" ++ toString id ++ ")") ++ ": " ++
    o.type.elim "abstract" TypeInfo.name ++ (if o.hasDefault then " (default)" else "")

/-- Where an input or output is found, and its type. -/
def stageVariableText (p : StageVariable) : String :=
  "@" ++ p.kind.name ++ "(" ++ p.location ++ ") " ++ p.type.name

/-- A line of names, if there are any. -/
def namesLine (title : String) (names : List String) : List String :=
  if names.isEmpty then [] else ["  " ++ title ++ " " ++ Text.join ", " names]

def functionLines (f : FunctionInfo) : List String :=
  let title := f.stage.elim "" (·.keyword ++ " ") ++ "fn " ++ f.name ++ " [lines " ++
    toString f.startLine ++ "-" ++ toString f.endLine ++ "]" ++ usageMark f.inUse
  let size := match f.workgroupSize with
    | some (x, y, z) =>
      ["  workgroup_size " ++ Text.join ", " [toString x, toString y, toString z]]
    | none => []
  [title] ++ size ++ f.inputs.map (fun p => "  in " ++ p.name ++ " " ++ stageVariableText p) ++
    f.outputs.map (fun p => "  out " ++ stageVariableText p) ++ namesLine "uses" f.resources ++
    namesLine "calls" f.calls

/-- A reflected module: structures, groups, overrides and functions. -/
def reflectionLines (r : Reflection) : List String :=
  r.structs.flatMap (structLines r) ++ r.bindGroups.flatMap (fun (g, vs) => groupLines g vs) ++
    r.overrides.map overrideLine ++ r.functions.flatMap functionLines

/-! ## Buffers -/

/-- The kind of number that a buffer is written and shown in: the one of its type or of the elements
of its type, and single-precision floats otherwise. -/
def elementKind (v : Resource) : ScalarKind :=
  let element := match v.type.shape with
    | .array element _ _ => element
    | _ => v.type
  element.scalarKind?.getD .f32

/-- The word for a number in a buffer. Integers are held inside their range, and a truth value takes
the word of an unsigned integer. -/
def word (kind : ScalarKind) (x : Float) : UInt32 :=
  match kind with
  | .i32 =>
    let n := Number.Double.toIntClamped Int32.minValue.toInt Int32.maxValue.toInt x
    (Int32.ofInt n).toUInt32
  | .u32 | .bool => (Number.Double.toIntClamped 0 (UInt32.size - 1) x).toNat.toUInt32
  | .f32 | .f16 => (Single.ofDouble x).bits

/-- The bytes of a buffer that holds the numbers, a word for each. -/
def encode (kind : ScalarKind) (values : List Float) : Array UInt8 :=
  (values.flatMap fun x => Bytes.ofUInt32 (word kind x)).toArray

/-- How the word of a buffer is shown. -/
def wordText (kind : ScalarKind) (w : UInt32) : String :=
  match kind with
  | .i32 => toString w.toInt32.toInt
  | .u32 | .bool => toString w.toNat
  | .f32 | .f16 => (Single.mk w).spell

/-- The words that bytes spell, four bytes for each; a last word may have fewer. -/
def words : List UInt8 → List UInt32
  | a :: b :: c :: d :: rest => Bytes.toUInt32 [a, b, c, d] :: words rest
  | [] => []
  | rest => [Bytes.toUInt32 rest]

/-- The bytes of a resource; a sampler has none. -/
def resourceBytes? : HostResource → Option (Array UInt8)
  | .uniform bytes | .storage bytes | .texture bytes _ _ => some bytes
  | .sampler => none

/-- The numbers in a slot. -/
def contentText (kind : ScalarKind) (g : BindGroups) (slot : BindSlot) : String :=
  match (g.find? slot).bind resourceBytes? with
  | some bytes => "[" ++ Text.join ", " ((words bytes.toList).map (wordText kind)) ++ "]"
  | none => ""

/-- The line of a buffer that was given as an argument. -/
def bufferLines (r : Reflection) (g : BindGroups) (b : BufferArgument) : List String :=
  let slot := b.slot
  match r.findResource? slot.group slot.binding with
  | none => []
  | some v => [toString slot.group ++ ":" ++ toString slot.binding ++ " " ++ v.name ++ " = " ++
      contentText (elementKind v) g slot]

/-! ## Steps -/

/-- The command that a step has run. -/
def commandLine (c : CommandInfo) : String :=
  Text.rightAligned 4 (toString c.line) ++ ": " ++ c.text

/-- An active function with its variables. -/
def frameLine (f : FrameState) : String :=
  "      " ++ f.name ++ " [" ++ toString f.line ++ "] " ++
    Text.join ", " (f.locals.map fun (name, v) => name ++ " = " ++ v.text)

/-! ## Failures -/

/-- Why a request fails. -/
inductive Failure where
  | noSuchFile
  | unknownBinding (slot : BindSlot)
  | fault (fault : Fault)
  deriving DecidableEq, Repr

/-- A record with named parts. -/
def recordText (name : String) (parts : List (String × String)) : String :=
  name ++ " \x7b " ++ Text.join ", " (parts.map fun (part, text) => part ++ ": " ++ text) ++ " \x7d"

/-- A fault as a record of its parts. -/
def faultText : Fault → String
  | .lexical cause line =>
    recordText "Syntax" [("message", Text.quoted (cause.message line)), ("line", toString line)]
  | .parse cause line lexeme =>
    recordText "Parse" [("message", Text.quoted cause.message), ("line", toString line),
      ("lexeme", Text.quoted lexeme)]
  | .dispatch cause => "Exec(" ++ Text.quoted cause.message ++ ")"
  | .layout text => "Layout(" ++ Text.quoted text ++ ")"
  | .emptyClamp => Text.quoted Fault.emptyClamp.message

/-- The text of a failure. -/
def Failure.message : Failure → String
  | noSuchFile => "IoError(" ++ recordText "Os" [("code", "2"), ("kind", "NotFound"),
      ("message", Text.quoted "No such file or directory")] ++ ")"
  | unknownBinding slot =>
    "UnknownBinding(" ++ toString slot.group ++ ", " ++ toString slot.binding ++ ")"
  | fault f => "Shader(" ++ faultText f ++ ")"

end CommandLine

end Wgsl
