import QueryPlan.CommandLine

namespace QueryPlan

def readFile (path : String) : IO (Except String String) := do
  try
    return .ok (← IO.FS.readFile path)
  catch
    | .noFileOrDirectory .. => return .error "No such file or directory (os error 2)"
    | e => return .error (toString e)

end QueryPlan

def main (words : List String) : IO UInt32 := do
  let values ← [QueryPlan.Settings.limitVariable, QueryPlan.Settings.depthVariable].mapM
    fun name => do return (name, ← IO.getEnv name)
  let environment := fun name => (values.lookup name).join
  let outcome ← QueryPlan.CommandLine.run environment QueryPlan.readFile words
  IO.print outcome.stdout
  IO.eprint outcome.stderr
  return outcome.exitCode
