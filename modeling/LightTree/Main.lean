import LightTree.CommandLine

/-!
# The program
-/

namespace LightTree

def CommandLine.readFile? (path : String) : IO (Option ByteArray) := do
  try
    return some (← IO.FS.readBinFile path)
  catch _ =>
    return none

end LightTree

open LightTree

def main (arguments : List String) : IO UInt32 := do
  let file ←
    match CommandLine.read? arguments with
    | some (.invoke { config := some path, .. }) => CommandLine.readFile? path
    | _ => pure none
  let reply := CommandLine.reply arguments fun _ ↦ file
  IO.print reply.output
  IO.eprint reply.complaint
  return UInt32.ofNat reply.code
