import Wgsl.Host
import Wgsl.Number.Spelling
import Wgsl.Text.Blank
import Wgsl.Text.Split

/-! # Values of options

How the values of options are written: counts of workgroups, buffers with their contents, and
overrides. Blanks around a number do not matter, but a complaint shows the text as it was given.
-/

namespace Wgsl.CommandLine
set_option autoImplicit false

/-- An option that takes a value. -/
inductive ValueOption where
  | entry
  | dispatch
  | buffer
  | override
  deriving DecidableEq, Repr, Inhabited

namespace ValueOption

def name : ValueOption → String
  | entry => "entry"
  | dispatch => "dispatch"
  | buffer => "buffer"
  | override => "override"

/-- How a value of the option is described. -/
def placeholder : ValueOption → String
  | entry => "ENTRY"
  | dispatch => "X,Y,Z"
  | buffer => "G:B=storage|uniform:V1,V2,..."
  | override => "NAME=VALUE"

/-- The option as complaints show it. -/
def shown (o : ValueOption) : String := "--" ++ o.name ++ " <" ++ o.placeholder ++ ">"

end ValueOption

/-! ## Complaints -/

/-- Why a text is no number. -/
inductive NumberFault where
  | integer (fault : Number.IntegerFault)
  | emptyFloat
  | invalidFloat
  deriving DecidableEq, Repr

/-- The wording of a complaint about a number. -/
def NumberFault.message : NumberFault → String
  | integer .empty => "cannot parse integer from empty string"
  | integer .invalidDigit => "invalid digit found in string"
  | integer .tooLarge => "number too large to fit in target type"
  | integer .tooSmall => "number too small to fit in target type"
  | emptyFloat => "cannot parse float from empty string"
  | invalidFloat => "invalid float literal"

/-- Which part of a value a number stands for. -/
inductive NumberRole where
  | workgroupCount
  | value
  | group
  | binding
  deriving DecidableEq, Repr

def NumberRole.name : NumberRole → String
  | workgroupCount => "workgroup count"
  | value => "value"
  | group => "group"
  | binding => "binding"

/-- Why the value of an option cannot be taken. -/
inductive ValueFault where
  | tooManyCounts (value : String)
  | notABuffer (value : String)
  | notASlot (slot : String)
  | unknownBufferKind (kind : String)
  | notAnOverride (value : String)
  | badNumber (role : NumberRole) (text : String) (fault : NumberFault)
  deriving DecidableEq, Repr

/-- The wording of a complaint about a value. -/
def ValueFault.message : ValueFault → String
  | tooManyCounts value => "expected at most three counts, got '" ++ value ++ "'"
  | notABuffer value => "expected G:B=KIND:VALUES, got '" ++ value ++ "'"
  | notASlot slot => "expected GROUP:BINDING, got '" ++ slot ++ "'"
  | unknownBufferKind kind => "buffer kind must be storage or uniform, got '" ++ kind ++ "'"
  | notAnOverride value => "expected NAME=VALUE, got '" ++ value ++ "'"
  | badNumber role text fault => "bad " ++ role.name ++ " '" ++ text ++ "': " ++ fault.message

/-! ## Numbers -/

/-- A natural number below `2 ^ 32`. -/
def readWord (role : NumberRole) (text : String) : Except ValueFault Nat :=
  match Number.readInteger 10 0 (UInt32.size - 1) (Text.trim text).toList with
  | .ok n => .ok n.toNat
  | .error fault => .error (.badNumber role text (.integer fault))

/-- A decimal number. -/
def readNumber (text : String) : Except ValueFault Float :=
  let body := Text.trim text
  match Number.readDecimal? body.toList with
  | some x => .ok x
  | none => .error (.badNumber .value text (if body.isEmpty then .emptyFloat else .invalidFloat))

/-! ## Values -/

/-- Counts of workgroups, divided by commas; missing counts are one. -/
def readCounts (value : String) : Except ValueFault Extent := do
  let parts := Text.split ',' value
  if 3 < parts.length then throw (.tooManyCounts value)
  match ← parts.mapM (readWord .workgroupCount) with
  | [x, y, z] => return ⟨x, y, z⟩
  | [x, y] => return ⟨x, y, 1⟩
  | [x] => return ⟨x, 1, 1⟩
  | _ => return ⟨1, 1, 1⟩

/-- A buffer to bind: its slot, its kind and the numbers in it. -/
structure BufferArgument where
  slot : BindSlot
  uniform : Bool
  values : List Float
  deriving Inhabited

/-- The numbers in a buffer, divided by commas; blank parts are skipped. -/
def readValues (values : String) : Except ValueFault (List Float) :=
  ((Text.split ',' values).filter fun v => !(Text.trim v).isEmpty).mapM readNumber

/-- Whether the word for the kind of a buffer says that it is uniform. -/
def readBufferKind : String → Except ValueFault Bool
  | "storage" => .ok false
  | "uniform" => .ok true
  | kind => .error (.unknownBufferKind kind)

/-- A buffer, as `group:binding=kind:values`. The form is checked first, then the kind, the values
and the slot. -/
def readBuffer (value : String) : Except ValueFault BufferArgument := do
  let some (slot, content) := Text.cut? '=' value | throw (.notABuffer value)
  let some (group, binding) := Text.cut? ':' slot | throw (.notASlot slot)
  let (kind, values) := (Text.cut? ':' content).getD (content, "")
  let uniform ← readBufferKind kind
  let values ← readValues values
  return {
    slot := ⟨← readWord .group group, ← readWord .binding binding⟩
    uniform
    values }

/-- The value of an override; truth values count as one and zero. -/
def readOverrideValue (value : String) : Except ValueFault Float :=
  match Text.trim value with
  | "true" => .ok 1
  | "false" => .ok 0
  | v => readNumber v

/-- An override, as `name=value`. -/
def readOverride (value : String) : Except ValueFault (String × Float) := do
  let some (name, v) := Text.cut? '=' value | throw (.notAnOverride value)
  return (Text.trim name, ← readOverrideValue v)

end Wgsl.CommandLine
