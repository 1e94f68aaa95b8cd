import Wgsl.Texture

/-! # Host resources

What the host hands to a run: resources by slot, and values for overrides.
-/

namespace Wgsl
set_option autoImplicit false

/-- The slot of a host resource: its group and its binding. -/
structure BindSlot where
  group : Nat
  binding : Nat
  deriving DecidableEq, Repr, Inhabited

/-- The order of slots: by group, then by binding. -/
def BindSlot.before (a b : BindSlot) : Bool :=
  decide (a.group < b.group) || (decide (a.group = b.group) && decide (a.binding < b.binding))

/-- A resource of the host. -/
inductive HostResource where
  | uniform (bytes : Array UInt8)
  | storage (bytes : Array UInt8)
  | texture (data : Array UInt8) (size : Extent) (format : TexelFormat)
  | sampler
  deriving Inhabited

/-- Host resources, one for each slot, in the order of slots. -/
structure BindGroups where
  entries : List (BindSlot × HostResource) := []
  deriving Inhabited

namespace BindGroups

/-- Puts a resource at its place in the order. -/
def insertEntry (slot : BindSlot) (r : HostResource) :
    List (BindSlot × HostResource) → List (BindSlot × HostResource)
  | [] => [(slot, r)]
  | (other, o) :: rest =>
    if slot = other then (slot, r) :: rest
    else if slot.before other then (slot, r) :: (other, o) :: rest
    else (other, o) :: insertEntry slot r rest

/-- Puts a resource into a slot, in place of an earlier one. -/
def insert (g : BindGroups) (slot : BindSlot) (r : HostResource) : BindGroups :=
  ⟨insertEntry slot r g.entries⟩

/-- The resource in a slot. -/
def find? (g : BindGroups) (slot : BindSlot) : Option HostResource := g.entries.lookup slot

/-- Empties a slot. -/
def erase (g : BindGroups) (slot : BindSlot) : BindGroups :=
  ⟨g.entries.filter fun entry => entry.1 ≠ slot⟩

end BindGroups

/-- Values for overrides, by name or by the text of their number. -/
abbrev Config := Table Float

end Wgsl
