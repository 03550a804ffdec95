namespace FairQueue.Checks

structure Check where
  name : String
  arguments : List String
  environment : List (String × String)
  advice : String
deriving DecidableEq

def Check.commandLine (check : Check) : String :=
  " ".intercalate check.arguments

inductive Suite where
  | format
  | clippy
  | test
  | doc
  | loom
  | shuttle
  | miri
deriving DecidableEq

namespace Suite

def all : List Suite :=
  [format, clippy, test, doc, loom, shuttle, miri]

/-- The suites that are run when none is asked for; the others are slow. -/
def standard : List Suite :=
  [format, clippy, test, doc]

def name : Suite → String
  | format => "format"
  | clippy => "clippy"
  | test => "test"
  | doc => "doc"
  | loom => "loom"
  | shuttle => "shuttle"
  | miri => "miri"

def ofName? (name : String) : Option Suite :=
  all.find? (·.name = name)

private def lintAdvice : String := "Please fix clippy errors in output above."

/-- The checks of a suite, in order. To keep going, the tests are told not to stop at the first
failure either. -/
def checks (suite : Suite) (keepGoing : Bool) : List Check :=
  match suite with
  | format => [{
      name := suite.name
      arguments := ["fmt", "--all", "--", "--check"]
      environment := []
      advice := "Please run 'cargo fmt --all' to format your code." }]
  | clippy => [{
      name := suite.name
      arguments := ["clippy", "--workspace", "--all-targets", "--", "-Dwarnings"]
      environment := []
      advice := lintAdvice }]
  | test => [{
      name := suite.name
      arguments := ["test", "--lib", "--tests"] ++ if keepGoing then ["--no-fail-fast"] else []
      environment := []
      advice := "Please fix failing tests in output above." }]
  | doc => [{
      name := suite.name
      arguments := ["doc", "--no-deps", "--document-private-items"]
      environment := [("RUSTDOCFLAGS", "-D warnings")]
      advice := "Please fix doc warnings in output above." }, {
      name := suite.name
      arguments := ["test", "--doc"]
      environment := []
      advice := "Please fix failing doc tests in output above." }]
  | loom => [{
      name := suite.name
      arguments := ["clippy", "--test", "loom", "--", "-Dwarnings"]
      environment := [("RUSTFLAGS", "--cfg loom")]
      advice := lintAdvice }, {
      name := suite.name
      arguments := ["test", "--test", "loom", "--profile", "loom"]
      environment := [("RUSTFLAGS", "--cfg loom"), ("LOOM_MAX_PREEMPTIONS", "3")]
      advice := "Please fix failing loom tests in output above." }]
  | shuttle => [{
      name := suite.name
      arguments := ["clippy", "--test", "shuttle", "--features", "shuttle", "--", "-Dwarnings"]
      environment := []
      advice := lintAdvice }, {
      name := suite.name
      arguments := ["test", "--test", "shuttle", "--profile", "shuttle", "--features", "shuttle"]
      environment := []
      advice := "Please fix failing shuttle tests in output above." }]
  | miri => [{
      name := suite.name
      arguments := ["+nightly", "miri", "test", "--lib", "--test", "miri"]
      environment := []
      advice := "Please fix undefined behavior reported in output above." }]

end Suite

/-- The checks to run for a suite, or for all standard suites if none is asked for. -/
def plan (suite : Option Suite) (keepGoing : Bool) : List Check :=
  match suite with
  | some suite => suite.checks keepGoing
  | none => Suite.standard.flatMap (·.checks keepGoing)

end FairQueue.Checks
