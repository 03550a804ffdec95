import FairQueue.Checks.StandIn
import FairQueue.Proofs.Checks.Report
import Mathlib.Data.List.Infix

/-!
To keep going hides no failure. A run that keeps going makes the same checks as one that stops, with
one more argument for the tests. A tool that fails on certain texts fails on a longer command line
if it fails on a shorter one, so the check that ends the one run fails in the other one too.
-/

namespace FairQueue.Checks

/-- The check as it is made to keep going: the tests are told not to stop at a failure. -/
def Check.toKeepGoing (check : Check) : Check :=
  if check.name = Suite.test.name then
    { check with arguments := check.arguments ++ ["--no-fail-fast"] }
  else
    check

/-- Joined parts are how more parts joined begin. -/
theorem intercalate_prefix_append {β : Type} (separator : List β) (parts more : List (List β)) :
    separator.intercalate parts <+: separator.intercalate (parts ++ more) := by
  have hsplit : ∀ part next rest, separator.intercalate (part :: next :: rest) =
      part ++ separator ++ separator.intercalate (next :: rest) :=
    fun part next rest => List.intercalate_cons_of_ne_nil (List.cons_ne_nil next rest)
  induction parts with
  | nil => exact List.nil_prefix
  | cons part parts ih =>
      cases parts with
      | nil =>
          rw [List.intercalate_singleton, List.singleton_append]
          cases more with
          | nil => exact List.intercalate_singleton.symm ▸ List.prefix_refl _
          | cons next more =>
              rw [hsplit, List.append_assoc]
              exact List.prefix_append _ _
      | cons next parts =>
          rw [List.cons_append, List.cons_append, hsplit, hsplit]
          exact (List.prefix_append_right_inj _).mpr ih

namespace Check

variable (check : Check)

@[simp] theorem name_toKeepGoing : check.toKeepGoing.name = check.name := by
  unfold toKeepGoing
  split <;> rfl

@[simp] theorem advice_toKeepGoing : check.toKeepGoing.advice = check.advice := by
  unfold toKeepGoing
  split <;> rfl

theorem arguments_prefix_toKeepGoing : check.arguments <+: check.toKeepGoing.arguments := by
  unfold toKeepGoing
  split
  · exact List.prefix_append _ _
  · exact List.prefix_refl _

theorem commandLine_prefix_toKeepGoing :
    check.commandLine.toList <+: check.toKeepGoing.commandLine.toList := by
  obtain ⟨more, hmore⟩ := check.arguments_prefix_toKeepGoing
  simp only [commandLine, String.toList_intercalate, ← hmore, List.map_append]
  exact intercalate_prefix_append _ _ _

end Check

theorem Suite.checks_keepGoing (suite : Suite) :
    suite.checks true = (suite.checks false).map Check.toKeepGoing := by
  cases suite <;> rfl

/-- Whatever is asked for, keeping going changes no more than the arguments of the tests. -/
theorem plan_keepGoing (suite : Option Suite) :
    plan suite true = (plan suite false).map Check.toKeepGoing := by
  cases suite with
  | some suite => exact suite.checks_keepGoing
  | none => simp only [plan, List.map_flatMap, Suite.checks_keepGoing]

namespace StandIn

open Attempt

variable (tool : StandIn) {check : Check}

def attempt (check : Check) : Attempt where
  check := check
  outcome := tool.outcome check

theorem occursIn_iff {part whole : String} :
    occursIn part whole = true ↔ part.toList <:+: whole.toList := by
  simp only [occursIn, List.any_eq_true, List.mem_range, List.isPrefixOf_iff_prefix,
    List.infix_iff_prefix_suffix]
  constructor
  · rintro ⟨start, -, hprefix⟩
    exact ⟨_, hprefix, List.drop_suffix _ _⟩
  · rintro ⟨rest, hprefix, skipped, hsuffix⟩
    refine ⟨skipped.length, ?_, ?_⟩
    · have hlength := congrArg List.length hsuffix
      rw [List.length_append, String.length_toList] at hlength
      omega
    · rwa [← hsuffix, List.drop_left]

theorem exitCode_toKeepGoing (hpassed : tool.exitCode check.toKeepGoing = 0) :
    tool.exitCode check = 0 := by
  unfold exitCode at hpassed ⊢
  split
  · rename_i hoccurs
    refine (if_pos ?_).symm.trans hpassed
    simp only [List.any_eq_true, occursIn_iff] at hoccurs ⊢
    obtain ⟨text, htext, hinfix⟩ := hoccurs
    exact ⟨text, htext, hinfix.trans check.commandLine_prefix_toKeepGoing.isInfix⟩
  · rfl

theorem passed_attempt_iff :
    (tool.attempt check).passed = true ↔ tool.installed = true ∧ tool.exitCode check = 0 := by
  cases hinstalled : tool.installed <;>
    simp [Attempt.passed, Outcome.passed, attempt, outcome, hinstalled]

/-- A check that passes in a run that keeps going passes in one that stops. -/
theorem passed_toKeepGoing (hpassed : (tool.attempt check.toKeepGoing).passed = true) :
    (tool.attempt check).passed = true := by
  rw [passed_attempt_iff] at hpassed ⊢
  exact ⟨hpassed.1, tool.exitCode_toKeepGoing hpassed.2⟩

theorem ofChecks_eq (keepGoing : Bool) (checks : List Check) (report : Report) :
    Report.ofChecks (m := Id) tool.outcome keepGoing report checks =
      (made keepGoing (checks.map tool.attempt)).foldl (Report.note keepGoing) report := by
  induction checks generalizing report with
  | nil =>
      rw [List.map_nil, made_nil]
      rfl
  | cons check checks ih =>
      change (if (tool.attempt check).passed || keepGoing then _ else _ : Report) = _
      rw [List.map_cons]
      cases hgoes : (tool.attempt check).passed || keepGoing with
      | true =>
          rw [made_cons_of_goes_on hgoes, List.foldl_cons]
          exact ih _
      | false =>
          rw [made_cons_of_stops hgoes]
          rfl

variable (suite : Option Suite) (keepGoing : Bool)

theorem attempts_report : (tool.report suite keepGoing).attempts =
    made keepGoing ((plan suite keepGoing).map tool.attempt) := by
  rw [report, ofChecks_eq, Report.attempts_foldl_note]
  rfl

theorem failures_report : (tool.report suite keepGoing).failures =
    ((tool.report suite keepGoing).attempts.filter fun attempt => !attempt.passed).map
      (·.failure keepGoing) := by
  rw [attempts_report, report, ofChecks_eq, Report.failures_foldl_note]
  rfl

theorem exitCode_report_eq_zero_iff : (tool.report suite keepGoing).exitCode = 0 ↔
    ∀ attempt ∈ (tool.report suite keepGoing).attempts, attempt.passed = true := by
  rw [Report.exitCode_eq, failures_report]
  simp

/-- A run that keeps going makes all checks. -/
theorem attempts_going : (tool.report suite true).attempts =
    (plan suite false).map fun check => tool.attempt check.toKeepGoing := by
  rw [attempts_report, plan_keepGoing, List.map_map]
  rfl

theorem checks_going : (tool.report suite true).attempts.map (·.check) =
    (plan suite false).map Check.toKeepGoing := by
  rw [attempts_going, List.map_map]
  rfl

variable {suite}

/-- A run that stops at a failure has made the checks before it, which passed, and that one. -/
theorem exists_of_stopping (hfailed : (tool.report suite false).exitCode ≠ 0) :
    ∃ before check after, plan suite false = before ++ check :: after ∧
      (tool.attempt check).passed = false ∧
      (tool.report suite false).attempts = (before ++ [check]).map tool.attempt ∧
      (tool.report suite false).failures = [check.name ++ ": " ++ check.advice] := by
  have hall : ¬ ∀ check ∈ plan suite false, (tool.attempt check).passed = true := by
    intro hall
    have hpassed : ∀ attempt ∈ (plan suite false).map tool.attempt, attempt.passed = true :=
      List.forall_mem_map.mpr hall
    rw [ne_eq, exitCode_report_eq_zero_iff, attempts_report, made_of_passed hpassed] at hfailed
    exact hfailed hpassed
  have hsome : ((plan suite false).find? fun check => !(tool.attempt check).passed).isSome := by
    simpa using hall
  obtain ⟨check, hcheck⟩ := Option.isSome_iff_exists.mp hsome
  obtain ⟨hfails, before, after, hsplit, hbefore⟩ := List.find?_eq_some_iff_append.mp hcheck
  have hfails' : (tool.attempt check).passed = false := by simpa using hfails
  have hbefore' : ∀ check ∈ before, (tool.attempt check).passed = true := by simpa using hbefore
  have hattempts : (tool.report suite false).attempts = (before ++ [check]).map tool.attempt := by
    rw [attempts_report, hsplit, List.map_append, List.map_append]
    exact made_of_failed (List.forall_mem_map.mpr hbefore') hfails'
  refine ⟨before, check, after, hsplit, hfails', hattempts, ?_⟩
  have hnone : (before.map tool.attempt).filter (fun attempt => !attempt.passed) = [] := by
    simpa using hbefore'
  have hfailure : (tool.attempt check).failure false = check.name ++ ": " ++ check.advice := by
    rw [Attempt.failure_eq]
    simp [attempt]
  rw [failures_report, hattempts, List.map_append, List.filter_append, hnone, ← hfailure]
  simp [hfails']

/-- What fails in a run that stops fails in one that keeps going, and is listed there. -/
theorem fails_going {check : Check} (hmem : check ∈ plan suite false)
    (hfails : (tool.attempt check).passed = false) :
    tool.attempt check.toKeepGoing ∈ (tool.report suite true).attempts ∧
      (tool.attempt check.toKeepGoing).passed = false ∧
      "- " ++ check.name ++ ": " ++ check.advice ∈ (tool.report suite true).failures := by
  have hagain : (tool.attempt check.toKeepGoing).passed = false :=
    Bool.eq_false_iff.mpr fun hpassed =>
      Bool.eq_false_iff.mp hfails (tool.passed_toKeepGoing hpassed)
  have hmade : tool.attempt check.toKeepGoing ∈ (tool.report suite true).attempts := by
    rw [attempts_going]
    exact List.mem_map_of_mem hmem
  have hfailure : (tool.attempt check.toKeepGoing).failure true =
      "- " ++ check.name ++ ": " ++ check.advice := by
    rw [Attempt.failure_eq]
    simp [attempt]
  refine ⟨hmade, hagain, ?_⟩
  rw [failures_report, ← hfailure]
  exact List.mem_map_of_mem (List.mem_filter.mpr ⟨hmade, by simp [hagain]⟩)

/-- If nothing fails in a run that keeps going, a run that stops at failures makes all checks. -/
theorem attempts_of_going (hcode : (tool.report suite true).exitCode = 0) :
    (tool.report suite false).exitCode = 0 ∧
      (tool.report suite false).attempts = (plan suite false).map tool.attempt := by
  rw [exitCode_report_eq_zero_iff, attempts_going] at hcode
  have hall : ∀ attempt ∈ (plan suite false).map tool.attempt, attempt.passed = true :=
    List.forall_mem_map.mpr fun check hcheck =>
      tool.passed_toKeepGoing (hcode _ (List.mem_map_of_mem hcheck))
  have hstopping : (tool.report suite false).attempts = (plan suite false).map tool.attempt :=
    (tool.attempts_report suite false).trans (made_of_passed hall)
  exact ⟨(tool.exitCode_report_eq_zero_iff suite false).mpr (hstopping ▸ hall), hstopping⟩

end StandIn

/-- A tool that goes by its arguments alone, and any suite or none. If the run that stops at a
failure fails, the one that keeps going fails too. It makes every check that the other one makes, in
the same order and environment, the tests with one more argument, and among its failures is the one
that ended the other run, with the same advice behind a bullet. If the run that keeps going does not
fail, then neither does the other, and both make the same checks. -/
theorem report_keepGoing_hides_nothing (tool : StandIn) (suite : Option Suite) :
    let stopping := tool.report suite false
    let going := tool.report suite true
    (stopping.exitCode ≠ 0 →
      going.exitCode ≠ 0 ∧
        stopping.attempts.map (·.check.toKeepGoing) <+: going.attempts.map (·.check) ∧
        ∃ failed ∈ stopping.attempts, failed.passed = false ∧
          stopping.failures = [failed.check.name ++ ": " ++ failed.check.advice] ∧
          (∃ again ∈ going.attempts,
            again.check = failed.check.toKeepGoing ∧ again.passed = false) ∧
          "- " ++ failed.check.name ++ ": " ++ failed.check.advice ∈ going.failures) ∧
      (going.exitCode = 0 →
        stopping.exitCode = 0 ∧
          stopping.attempts.map (·.check.toKeepGoing) = going.attempts.map (·.check)) := by
  intro stopping going
  have hchecks : going.attempts.map (·.check) = _ := tool.checks_going suite
  constructor
  · intro hfailed
    obtain ⟨before, check, after, hsplit, hfails, hattempts, hfailures⟩ :=
      tool.exists_of_stopping hfailed
    have hplanned : check ∈ plan suite false := by simp [hsplit]
    obtain ⟨hmem, hagain, hlisted⟩ := tool.fails_going hplanned hfails
    refine ⟨fun hcode => ?_, ?_, tool.attempt check, ?_, hfails, hfailures, ?_, hlisted⟩
    · have hpassed := (tool.exitCode_report_eq_zero_iff suite true).mp hcode _ hmem
      cases hagain.symm.trans hpassed
    · rw [hattempts, hchecks, hsplit]
      simp [StandIn.attempt, Function.comp_def]
    · rw [hattempts]
      exact List.mem_map_of_mem (by simp)
    · exact ⟨_, hmem, rfl, hagain⟩
  · intro hcode
    obtain ⟨hstops, hattempts⟩ := tool.attempts_of_going hcode
    refine ⟨hstops, ?_⟩
    rw [hattempts, hchecks, List.map_map]
    rfl

/-- One text is found in the arguments only of the run that keeps going, another one in those of
both. With an exit code of which nothing is left nothing fails. -/
theorem report_keepGoing_hides_nothing_twice :
    let tool : StandIn := { installed := true, failing := ["fail-fast", "test --doc"], code := 3 }
    let harmless : StandIn := { tool with code := 512 }
    (tool.report none false).exitCode ≠ 0 ∧ (tool.report none true).exitCode ≠ 0 ∧
      (tool.report none true).failures.length = 2 ∧
      (∃ failed ∈ (tool.report none false).attempts,
        (tool.report none false).failures = [failed.check.name ++ ": " ++ failed.check.advice] ∧
          "- " ++ failed.check.name ++ ": " ++ failed.check.advice ∈
            (tool.report none true).failures) ∧
      (harmless.report none true).exitCode = 0 ∧ (harmless.report none false).exitCode = 0 := by
  intro tool harmless
  have hfailed : (tool.report none false).exitCode ≠ 0 := by decide +kernel
  have hpassed : (harmless.report none true).exitCode = 0 := by decide +kernel
  obtain ⟨hfails, -⟩ := report_keepGoing_hides_nothing tool none
  obtain ⟨hgoing, -, failed, hmem, -, hfailure, -, hbullet⟩ := hfails hfailed
  obtain ⟨-, hpasses⟩ := report_keepGoing_hides_nothing harmless none
  refine ⟨hfailed, hgoing, by decide +kernel, ⟨failed, hmem, hfailure, hbullet⟩, hpassed, ?_⟩
  exact (hpasses hpassed).1

end FairQueue.Checks
