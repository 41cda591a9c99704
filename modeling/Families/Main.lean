import Families.CommandLine

/-!
# The program

Reads the file named by the first argument and leaves the rest to the command line.
-/

namespace Families
namespace CommandLine

/-- What the arguments ask for. -/
def readRequest : List String → IO Request
  | [] => pure .nothing
  | path :: _ => do
    try
      let text ← IO.FS.readFile path
      pure (.check text)
    catch _ =>
      pure .unreadable

end CommandLine
end Families

open Families.CommandLine

/-- Runs the command line. -/
def main (arguments : List String) : IO UInt32 := do
  match run (← readRequest arguments) with
  | .exited code output reports => do
    IO.eprint reports
    IO.print output
    pure code.toUInt32
  | .halted => pure 101
