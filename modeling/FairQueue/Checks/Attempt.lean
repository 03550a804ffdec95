import FairQueue.Checks.Suite
import FairQueue.Time

namespace FairQueue.Checks

/-- How running a command went. There is no status if the command could not be started. -/
structure Outcome where
  status? : Option Nat
  elapsed : Time
deriving DecidableEq

/-- A command that cannot be started does not pass. -/
def Outcome.passed (outcome : Outcome) : Bool :=
  outcome.status? = some 0

structure Attempt where
  check : Check
  outcome : Outcome
deriving DecidableEq

namespace Attempt

def passed (attempt : Attempt) : Bool :=
  attempt.outcome.passed

/-- What is said of a check that failed, with a bullet where there can be several. -/
def failure (keepGoing : Bool) (attempt : Attempt) : String :=
  if keepGoing then
    s!"- {attempt.check.name}: {attempt.check.advice}"
  else
    s!"{attempt.check.name}: {attempt.check.advice}"

end Attempt

end FairQueue.Checks
