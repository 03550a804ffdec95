import FairQueue.Checks.Attempt

namespace FairQueue.Checks

def padded (width : Nat) (text : String) : String :=
  String.ofList (text.toList ++ List.replicate (width - text.length) ' ')

/-- The quotient rounded to the nearest number, a tie to the even one. -/
def roundedQuotient (n d : Nat) : Nat :=
  let q := n / d
  let twice := 2 * (n % d)
  if twice < d || (twice = d && q % 2 = 0) then q else q + 1

/-- A length of time with one decimal, in the largest unit that it fills. -/
def elapsedText (t : Time) : String :=
  let n := t.toNanos
  let (unit, unitName) :=
    if 1000000000 ≤ n then (1000000000, "s")
    else if 1000000 ≤ n then (1000000, "ms")
    else if 1000 ≤ n then (1000, "µs")
    else (1, "ns")
  let tenths := roundedQuotient (10 * n) unit
  s!"{tenths / 10}.{tenths % 10}{unitName}"

namespace Attempt

def status (attempt : Attempt) : String :=
  if attempt.passed then "ok" else "FAILED"

/-- The line of the summary, up to the time that the check took. -/
def summary (attempt : Attempt) : String :=
  s!"{padded 10 attempt.check.name} {padded 6 attempt.status}"

def timedSummary (attempt : Attempt) : String :=
  s!"  {attempt.summary} {elapsedText attempt.outcome.elapsed}"

end Attempt

/-- A line that is printed: among the output, or among the errors. -/
inductive Message where
  | output (text : String)
  | error (text : String)
deriving DecidableEq

/-- What is noted while checks run: the attempts, and a line for each failure. -/
structure Report where
  attempts : List Attempt
  failures : List String
deriving DecidableEq

namespace Report

def blank : Report where
  attempts := []
  failures := []

def note (keepGoing : Bool) (report : Report) (attempt : Attempt) : Report where
  attempts := report.attempts ++ [attempt]
  failures :=
    if attempt.passed then report.failures
    else report.failures ++ [attempt.failure keepGoing]

/-- Runs checks in order, up to the first that fails unless told to keep going. -/
def ofChecks {m : Type → Type} [Monad m] (perform : Check → m Outcome) (keepGoing : Bool)
    (report : Report) : List Check → m Report
  | [] => return report
  | check :: checks => do
    let outcome ← perform check
    let report := report.note keepGoing { check, outcome }
    if outcome.passed || keepGoing then
      ofChecks perform keepGoing report checks
    else
      return report

def summary (report : Report) : List String :=
  report.attempts.map (·.summary)

/-- What is said at the very end, if anything failed. -/
def failureText? (report : Report) : Option String :=
  if report.failures.isEmpty then
    none
  else
    some ("One or more CI commands failed:\n" ++ "\n".intercalate report.failures)

/-- All that is said once the checks have run. -/
def messages (report : Report) : List Message :=
  .output "\nSummary:" :: report.attempts.map (.output ·.timedSummary)
    ++ report.failureText?.toList.map .error

def exitCode (report : Report) : Nat :=
  if report.failures.isEmpty then 0 else 101

end Report

/-- Runs checks and says how they went, with the exit code for the result. -/
def runChecks {m : Type → Type} [Monad m] (perform : Check → m Outcome) (print : Message → m Unit)
    (keepGoing : Bool) (checks : List Check) : m Nat := do
  let report ← Report.ofChecks perform keepGoing .blank checks
  report.messages.forM print
  return report.exitCode

end FairQueue.Checks
