import Wgsl.Table
import Wgsl.Tree.Mention

/-! # Which functions can run

The call graph of a module and the functions reachable in it. Functions come out with callees before
callers, which is the order of a depth-first walk; a cycle is cut where the walk would enter a
function it has not left yet.
-/

namespace Wgsl
set_option autoImplicit false

/-- The attributes that make a function an entry point. -/
def stageAttributes : List String := ["vertex", "fragment", "compute"]

def Function.isEntryPoint (f : Function) : Bool :=
  stageAttributes.any fun stage => (f.attribute? stage).isSome

/-- The functions of a module that each function calls directly, in the order of the first call. -/
abbrev CallGraph := Table (List String)

namespace CallGraph

/-- Adds a name behind the others, once. -/
def addOnce (names : List String) (name : String) : List String :=
  if names.contains name then names else names ++ [name]

/-- The known functions that a body calls. -/
def callees (known : List String) (f : Function) : List String :=
  f.mentions.foldl (fun found m =>
    match m with
    | .call name => if known.contains name then addOnce found name else found
    | _ => found) []

/-- The call graph of a module; the last of several functions of one name counts. -/
def ofProgram (p : Program) : CallGraph :=
  let known := p.functions.map Function.name
  p.functions.foldl (fun (g : CallGraph) f => g.insert f.name (callees known f)) []

/-- The direct callees of a function. -/
def direct (g : CallGraph) (name : String) : List String := (g.find? name).getD []

/-- Walks from a function, its callees first, and adds what is met to `order`. Functions on the
`path` from the start have been entered and not left. -/
def walk (g : CallGraph) : Nat → List String → List String → String → List String
  | 0, _, order, _ => order
  | budget + 1, path, order, name =>
    if order.contains name || path.contains name then order
    else
      (g.direct name).foldl (fun o callee => walk g budget (name :: path) o callee) order ++ [name]

/-- A path repeats no function, so it is no longer than the number of functions and the start. -/
def walkBudget (g : CallGraph) : Nat := g.length + 2

/-- The functions reachable from the entry points, callees before callers. -/
def reachable (g : CallGraph) (p : Program) : List String :=
  (p.functions.filter Function.isEntryPoint).foldl
    (fun order f => g.walk g.walkBudget [] order f.name) []

/-- The functions reachable from one function, itself included and last. -/
def transitive (g : CallGraph) (start : String) : List String :=
  g.walk g.walkBudget [] [] start

end CallGraph

end Wgsl
