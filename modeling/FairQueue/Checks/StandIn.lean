import FairQueue.Checks.Report

namespace FairQueue.Checks

/-- A build tool that does nothing. It exits with `code` if its arguments, joined by blanks, contain
one of the texts `failing`; otherwise it succeeds. -/
structure StandIn where
  installed : Bool
  failing : List String
  code : Int
deriving DecidableEq

namespace StandIn

/-- Whether a text occurs in another. -/
def occursIn (part whole : String) : Bool :=
  (List.range (whole.length + 1)).any fun start => part.toList.isPrefixOf (whole.toList.drop start)

/-- The system keeps the lowest eight bits of an exit code. -/
def exitCode (tool : StandIn) (check : Check) : Nat :=
  if tool.failing.any (occursIn · check.commandLine) then (tool.code % 256).toNat else 0

/-- Running a check takes no time. -/
def outcome (tool : StandIn) (check : Check) : Outcome where
  status? := if tool.installed then some (tool.exitCode check) else none
  elapsed := Time.zero

def report (tool : StandIn) (suite : Option Suite) (keepGoing : Bool) : Report :=
  Report.ofChecks (m := Id) tool.outcome keepGoing .blank (plan suite keepGoing)

/-- The commands that really ran: none, if the tool is not there to run them. -/
def ran (tool : StandIn) (report : Report) : List Check :=
  if tool.installed then report.attempts.map (·.check) else []

end StandIn

end FairQueue.Checks
