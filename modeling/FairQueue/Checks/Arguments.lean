import FairQueue.Checks.Suite

/-!
The command line: switches, then the name of a suite. A request for help is taken wherever it
stands among the switches or after the name, and nothing but a name may follow it.
-/

namespace FairQueue.Checks

inductive Command where
  | help
  | run (suite : Option Suite) (keepGoing : Bool)
deriving DecidableEq

namespace Command

def asksForHelp (argument : String) : Bool :=
  argument = "--help" || argument = "help"

def looksLikeSwitch (argument : String) : Bool :=
  argument.toList.head? = some '-'

/-- Reads what follows the name of a suite. A suite takes no arguments of its own, so help is all
that can be asked for here; the result tells whether it was. After a double dash nothing is a switch
any more. -/
def afterSuite? (help dashes : Bool) : List String → Option Bool
  | [] => some help
  | argument :: rest =>
    if asksForHelp argument && !dashes then
      afterSuite? true dashes rest
    else if argument = "--" && !dashes then
      afterSuite? help true rest
    else
      none

/-- Reads the arguments from the switches on. There is no command if one of them is not
understood. -/
def read? (keepGoing help dashes : Bool) : List String → Option Command
  | [] => some (if help then .help else .run none keepGoing)
  | argument :: rest =>
    if asksForHelp argument && !dashes then
      read? keepGoing true dashes rest
    else if looksLikeSwitch argument && !dashes then
      if argument = "--" then
        read? keepGoing help true rest
      else if argument = "--keep-going" && !help then
        read? true help dashes rest
      else
        none
    else
      match Suite.ofName? argument with
      | some suite =>
        (afterSuite? help false rest).map fun help =>
          if help then .help else .run (some suite) keepGoing
      | none => none

def ofArguments? (arguments : List String) : Option Command :=
  read? false false false arguments

end Command

end FairQueue.Checks
