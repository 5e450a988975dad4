import BlobSigner.CommandLine
/-!
# Command line of the operator's tool

Reads the file that the arguments name and random bytes, and shows what the tool leaves: its output,
its log on standard output too, and its exit status.
-/
namespace BlobSigner.Tool

/-- One line for a record. -/
def logLine (r : LogRecord) : String :=
  s!"[{r.level.name}] {r.component.name} {r.text}"

/-- The text of the file that is named, if one is and it can be opened. -/
def readNamed (arguments : List String) : IO (Option String) := do
  let some path := (Invocation.ofArguments arguments).toOption.bind Invocation.path? | return none
  try
    return some (← IO.FS.readFile path)
  catch _ =>
    return none

end BlobSigner.Tool

open BlobSigner.Tool in
def main (arguments : List String) : IO UInt32 := do
  let file ← readNamed arguments
  let entropy ← IO.getRandomBytes 4096
  let (status, c) := invoke (fun _ => file) arguments (.init .info (.ofStream entropy.toList))
  IO.print c.out
  IO.eprint c.err
  for r in c.log do
    IO.println (logLine r)
  return status.toUInt32
