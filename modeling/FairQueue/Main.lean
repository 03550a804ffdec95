import FairQueue.Checks.Arguments
import FairQueue.Checks.Report

/-!
The command line of the checks. Each command is printed for whoever runs it, and its exit status is
read from standard input; without a status the command counts as one that could not be started.
-/

namespace FairQueue.Main

open Checks

def usage : String :=
  "Usage: ci [--keep-going] [<command>]\n\nOptions:\n"
    ++ "  --keep-going      continue running commands even if one fails.\n"
    ++ "  --help, help      display usage information\n\nCommands:\n"
    ++ String.join (Suite.all.map fun suite => s!"  {suite.name}\n")

def commandLine (check : Check) : String :=
  String.join (check.environment.map fun (name, value) => s!"{name}='{value}' ")
    ++ s!"cargo {check.commandLine}"

def perform (input output : IO.FS.Stream) (check : Check) : IO Outcome := do
  let started ← IO.monoNanosNow
  output.putStrLn s!"$ {commandLine check}"
  output.flush
  let status ← input.getLine
  let ended ← IO.monoNanosNow
  return {
    status? := status.trimAscii.toNat?
    elapsed := Time.ofParts 0 (ended - started) }

def print (output errors : IO.FS.Stream) : Message → IO Unit
  | .output text => output.putStrLn text
  | .error text => errors.putStrLn text

def runSuite (suite : Option Suite) (keepGoing : Bool) : IO UInt32 := do
  let output ← IO.getStdout
  let code ← runChecks (perform (← IO.getStdin) output) (print output (← IO.getStderr)) keepGoing
    (plan suite keepGoing)
  return code.toUInt32

end FairQueue.Main

def main (arguments : List String) : IO UInt32 := do
  match FairQueue.Checks.Command.ofArguments? arguments with
  | some .help =>
    (← IO.getStdout).putStr FairQueue.Main.usage
    return 0
  | some (.run suite keepGoing) => FairQueue.Main.runSuite suite keepGoing
  | none =>
    (← IO.getStderr).putStr FairQueue.Main.usage
    return 1
