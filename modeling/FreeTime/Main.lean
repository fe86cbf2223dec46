-- The program: it reads the file named by its first argument and prints the answer.
import FreeTime.CommandLine
import FreeTime.Json.Write

open FreeTime

def main (args : List String) : IO UInt32 := do
  let engine ← IO.getEnv "SLOTWISE_ENGINE"
  let outcome ← match args with
    | [] => pure (CommandLine.run engine none)
    | path :: _ =>
      try
        pure (CommandLine.run engine (some (← IO.FS.readFile path)))
      catch e =>
        IO.eprintln (toString e)
        return 1
  match outcome with
  | .ok answer =>
    IO.println ((Wire.writeAnswer answer).pretty "")
    return 0
  | .error failure =>
    match failure.exitCode? with
    | some code =>
      IO.eprintln failure.message
      return code.toUInt32
    | none =>
      while true do IO.sleep 1000
      return 1
