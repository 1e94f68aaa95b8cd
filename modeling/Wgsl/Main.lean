import Wgsl.CommandLine

/-! # The program

Reads the file of a request, prints the outcome and exits with its code.
-/

/-- Prints an outcome and gives its exit code. -/
def Wgsl.CommandLine.Outcome.print (o : Wgsl.CommandLine.Outcome) : IO UInt32 := do
  IO.print o.output
  IO.eprint o.errors
  return o.code.toUInt32

def main (args : List String) : IO UInt32 := do
  match Wgsl.CommandLine.Request.ofArguments args with
  | .error fault => (Wgsl.CommandLine.Outcome.misused fault).print
  | .ok r =>
    let source? ← try some <$> IO.FS.readFile r.file catch _ => pure none
    (r.outcome source?).print
