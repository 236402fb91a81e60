import SharpScript.Command.Run

/-! # The command

Reads the files that the arguments name, runs the request, and prints or writes what it gives.
-/

namespace SharpScript.Command

/-- The contents of a file with its path, unless it cannot be read. -/
def loadFile (path : String) : IO (Option (String × ByteArray)) := do
  try
    return some (path, ← IO.FS.readBinFile path)
  catch _ =>
    return none

/-- Prints a complaint and gives the exit code. -/
def complain (e : RunError) : IO UInt32 := do
  IO.eprintln e.message
  return UInt32.ofNat e.code

/-- The paths of the files that a request names. -/
def requestedPaths : Request → List String
  | .help => []
  | .build o => o.inputs.filter (· != "-")

/-- Whether a request reads the input. -/
def readsInput : Request → Bool
  | .help => false
  | .build o => o.inputs.isEmpty || o.inputs.contains "-"

/-- Carries out an effect. -/
def perform : Effect → IO UInt32
  | .print text => do
    IO.print text
    return 0
  | .save path text => do
    try
      IO.FS.writeFile path text
      return 0
    catch _ =>
      complain (.cannotWrite path)

end SharpScript.Command

open SharpScript.Command in
/-- Runs the command and gives its exit code. -/
def main (args : List String) : IO UInt32 := do
  match readArguments args with
  | .error e => complain (.usage e)
  | .ok request =>
    let files ← (requestedPaths request).filterMapM loadFile
    let input ← if readsInput request then (← IO.getStdin).readBinToEnd else pure .empty
    match request.run (fun path => files.lookup path) input with
    | .error e => complain e
    | .ok effect => perform effect
