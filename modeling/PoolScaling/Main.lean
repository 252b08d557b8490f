import PoolScaling.CommandLine
import Std.Time.DateTime.Timestamp

/-! The program. -/
namespace PoolScaling.CommandLine

/-- The text of a file, if it can be read. -/
def readText? (path : String) : IO (Option String) := do
  try return some (← IO.FS.readFile path)
  catch _ => return none

def currentTime : IO Instant := do
  let t ← Std.Time.Timestamp.now
  return { nanos := t.toNanosecondsSinceUnixEpoch.val }

def runProgram (arguments : List String) : IO UInt32 := do
  let paths := match parse arguments with
    | .ok command => command.paths
    | .error _ => []
  let files ← paths.mapM fun path => return (path, ← readText? path)
  -- The time that an evaluation takes is not measured here.
  let outcome := run .still (fun path => (files.lookup path).join) (← currentTime) arguments
  (← IO.getStdout).putStr outcome.output
  (← IO.getStderr).putStr outcome.errors
  return outcome.code

end PoolScaling.CommandLine

def main (arguments : List String) : IO UInt32 := PoolScaling.CommandLine.runProgram arguments
