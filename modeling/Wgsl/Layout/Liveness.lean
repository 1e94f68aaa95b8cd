import Wgsl.Layout.TypeInfo

/-! # Structures in use

Marking a type as used marks every structure that can be reached from it through members, elements
and parameters. A structure that is marked already is not entered again.
-/

namespace Wgsl
set_option autoImplicit false

mutual

/-- Adds the structures reachable from a type to those in use. -/
def TypeInfo.markInUse : TypeInfo → List StructKey → List StructKey
  | .mk _ _ _ _ shape, live => TypeShape.markInUse shape live

def TypeShape.markInUse : TypeShape → List StructKey → List StructKey
  | .struct key members _ _, live =>
    if live.contains key then live else MemberInfo.markInUse members (key :: live)
  | .array element _ _, live => TypeInfo.markInUse element live
  | .template _ param _ _, live => TypeInfo.markParamInUse param live
  | .scalar _, live => live
  | .handle, live => live

def MemberInfo.markInUse : List MemberInfo → List StructKey → List StructKey
  | [], live => live
  | .mk _ type _ _ _ :: r, live => MemberInfo.markInUse r (TypeInfo.markInUse type live)

def TypeInfo.markParamInUse : Option TypeInfo → List StructKey → List StructKey
  | none, live => live
  | some t, live => TypeInfo.markInUse t live

end

end Wgsl
