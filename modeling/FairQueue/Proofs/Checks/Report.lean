import FairQueue.Checks.Report
import Mathlib.Data.List.TakeWhile

/-!
The report on a run of checks tells what happened in it. Commands act on a world of any kind, and
whether a command passes may depend on all that ran before it. What would happen if every check ran
is laid out first; a run is then compared with the part of it that comes about.
-/

namespace FairQueue.Checks

variable {σ : Type}

theorem padded_eq (width : Nat) (text : String) :
    padded width text = text ++ String.ofList (List.replicate (width - text.length) ' ') := by
  rw [padded, String.ofList_append, String.ofList_toList]

namespace Attempt

theorem failure_eq (keepGoing : Bool) (attempt : Attempt) :
    attempt.failure keepGoing
      = (if keepGoing then "- " else "") ++ attempt.check.name ++ ": " ++ attempt.check.advice := by
  cases keepGoing with
  | true => rfl
  | false =>
      rw [if_neg Bool.false_ne_true, String.empty_append]
      rfl

theorem passed_iff {attempt : Attempt} :
    attempt.passed = true ↔ attempt.outcome.status? = some 0 :=
  decide_eq_true_iff

theorem passed_eq_false_iff {attempt : Attempt} :
    attempt.passed = false ↔ attempt.outcome.status? ≠ some 0 :=
  decide_eq_false_iff_not

theorem filter_failed (attempts : List Attempt) :
    attempts.filter (fun attempt => !attempt.passed) =
      attempts.filter fun attempt => attempt.outcome.status? ≠ some 0 := by
  refine List.filter_congr fun attempt _ => ?_
  rw [Bool.eq_iff_iff, Bool.not_eq_true', passed_eq_false_iff, decide_eq_true_iff]

/-- The name, filled up to ten characters, and how the check went, filled up to six. -/
theorem summary_eq (attempt : Attempt) :
    attempt.summary =
      attempt.check.name ++ String.ofList (List.replicate (10 - attempt.check.name.length) ' ') ++
        if attempt.outcome.status? = some 0 then " ok    " else " FAILED" := by
  have hline : attempt.summary =
      padded 10 attempt.check.name ++ " " ++ padded 6 attempt.status := rfl
  rw [hline, padded_eq 10, String.append_assoc]
  congr 1
  by_cases hstatus : attempt.outcome.status? = some 0
  · rw [if_pos hstatus, status, if_pos (passed_iff.mpr hstatus)]
    decide
  · rw [if_neg hstatus, status, passed_eq_false_iff.mpr hstatus]
    decide

/-- What comes of each check when all of them run in order, whether or not they pass. -/
def inOrder (perform : Check → StateM σ Outcome) : List Check → σ → List Attempt
  | [], _ => []
  | check :: checks, world =>
    { check, outcome := ((perform check).run world).1 }
      :: inOrder perform checks ((perform check).run world).2

/-- The attempts that come about: the passing ones up to the first that fails, and that one. To
keep going, all of them. -/
def made (keepGoing : Bool) (attempts : List Attempt) : List Attempt :=
  if keepGoing then
    attempts
  else
    attempts.takeWhile (·.passed) ++ (attempts.dropWhile (·.passed)).take 1

variable {keepGoing : Bool} {attempt : Attempt} {attempts : List Attempt}

theorem made_nil (keepGoing : Bool) : made keepGoing [] = [] := by
  cases keepGoing <;> rfl

theorem made_cons_of_goes_on (h : (attempt.passed || keepGoing) = true) :
    made keepGoing (attempt :: attempts) = attempt :: made keepGoing attempts := by
  cases keepGoing with
  | true => rfl
  | false =>
      have hpassed : attempt.passed = true := by simpa using h
      simp [made, hpassed]

theorem made_cons_of_stops (h : (attempt.passed || keepGoing) = false) :
    made keepGoing (attempt :: attempts) = [attempt] := by
  obtain ⟨hpassed, rfl⟩ := Bool.or_eq_false_iff.mp h
  simp [made, hpassed]

theorem made_of_passed (h : ∀ attempt ∈ attempts, attempt.passed = true) :
    made false attempts = attempts := by
  have hnone : attempts.dropWhile (·.passed) = [] := List.dropWhile_eq_nil_iff.mpr h
  rw [made, if_neg Bool.false_ne_true, List.takeWhile_eq_self_iff.mpr h, hnone]
  exact List.append_nil _

/-- The first check that fails is the last one made. -/
theorem made_of_failed {before after : List Attempt}
    (hbefore : ∀ attempt ∈ before, attempt.passed = true) (hfailed : attempt.passed = false) :
    made false (before ++ attempt :: after) = before ++ [attempt] := by
  induction before with
  | nil => exact made_cons_of_stops (by simp [hfailed])
  | cons first before ih =>
      obtain ⟨hfirst, hrest⟩ := List.forall_mem_cons.mp hbefore
      rw [List.cons_append, made_cons_of_goes_on (by simp [hfirst]), ih hrest]
      rfl

/-- Nothing stands behind a failure unless the checks keep going. -/
theorem length_failed_made_le_one (attempts : List Attempt) :
    ((made false attempts).filter fun attempt => !attempt.passed).length ≤ 1 := by
  have hpassing : (attempts.takeWhile (·.passed)).filter (fun attempt => !attempt.passed) = [] := by
    rw [List.filter_eq_nil_iff]
    intro attempt hmem
    simp [List.mem_takeWhile_imp hmem]
  have hfailing : ((attempts.dropWhile (·.passed)).take 1).length ≤ 1 := List.length_take_le 1 _
  rw [made, if_neg Bool.false_ne_true, List.filter_append, hpassing, List.nil_append]
  exact Nat.le_trans (List.length_filter_le _ _) hfailing

end Attempt

namespace Report

open Attempt

theorem attempts_foldl_note (keepGoing : Bool) (attempts : List Attempt) (report : Report) :
    (attempts.foldl (note keepGoing) report).attempts = report.attempts ++ attempts := by
  induction attempts generalizing report with
  | nil => simp
  | cons attempt attempts ih => simp [ih, note]

theorem failures_foldl_note (keepGoing : Bool) (attempts : List Attempt) (report : Report) :
    (attempts.foldl (note keepGoing) report).failures
      = report.failures
        ++ (attempts.filter fun attempt => !attempt.passed).map (·.failure keepGoing) := by
  induction attempts generalizing report with
  | nil => simp
  | cons attempt attempts ih =>
      rw [List.foldl_cons, ih]
      by_cases hpassed : attempt.passed = true
      · simp [note, hpassed]
      · simp [note, hpassed]

theorem exitCode_eq (report : Report) :
    report.exitCode = if report.failures = [] then 0 else 101 := by
  simp only [exitCode, List.isEmpty_iff]

theorem messages_eq (report : Report) :
    report.messages
      = .output "\nSummary:" :: report.attempts.map (.output ·.timedSummary)
        ++ if report.failures = [] then [] else
          [.error ("One or more CI commands failed:\n" ++ "\n".intercalate report.failures)] := by
  rw [messages, failureText?]
  by_cases hnone : report.failures = []
  · simp [hnone]
  · simp [hnone]

variable (perform : Check → StateM σ Outcome) (keepGoing : Bool)

/-- One turn of the loop. -/
theorem run_ofChecks_cons (report : Report) (check : Check) (checks : List Check) (world : σ) :
    (ofChecks perform keepGoing report (check :: checks)).run world =
      let attempt : Attempt := { check, outcome := ((perform check).run world).1 }
      let next := ((perform check).run world).2
      if attempt.passed || keepGoing then
        (ofChecks perform keepGoing (report.note keepGoing attempt) checks).run next
      else
        (report.note keepGoing attempt, next) := by
  rw [ofChecks, StateT.run_bind]
  exact apply_ite (StateT.run · ((perform check).run world).2) _ _ _

theorem run_mapM_cons (check : Check) (checks : List Check) (world : σ) :
    ((check :: checks).mapM perform).run world =
      let rest := (checks.mapM perform).run ((perform check).run world).2
      (((perform check).run world).1 :: rest.1, rest.2) := by
  rw [List.mapM_cons, StateT.run_bind]
  rfl

/-- A run notes the attempts that come about, one after the other, and does to the world what
performing just their commands does. -/
theorem run_ofChecks (checks : List Check) (report : Report) (world : σ) :
    let attempts := made keepGoing (inOrder perform checks world)
    ∃ after,
      (ofChecks perform keepGoing report checks).run world
        = (attempts.foldl (note keepGoing) report, after)
      ∧ ((attempts.map (·.check)).mapM perform).run world = (attempts.map (·.outcome), after) := by
  induction checks generalizing report world with
  | nil =>
      refine ⟨world, ?_, ?_⟩
      · rw [inOrder, made_nil]
        rfl
      · rw [inOrder, made_nil]
        rfl
  | cons check checks ih =>
      let attempt : Attempt := { check, outcome := ((perform check).run world).1 }
      let next := ((perform check).run world).2
      dsimp only
      rw [inOrder, run_ofChecks_cons]
      cases hgoes : attempt.passed || keepGoing with
      | true =>
          obtain ⟨after, hloop, hworld⟩ := ih (report.note keepGoing attempt) next
          refine ⟨after, ?_, ?_⟩
          · rw [made_cons_of_goes_on hgoes, List.foldl_cons, if_pos hgoes, hloop]
          · rw [made_cons_of_goes_on hgoes, List.map_cons, run_mapM_cons, hworld, List.map_cons]
      | false =>
          refine ⟨next, ?_, ?_⟩
          · rw [made_cons_of_stops hgoes, if_neg (Bool.eq_false_iff.mp hgoes)]
            rfl
          · rw [made_cons_of_stops hgoes, List.map_singleton, run_mapM_cons]
            rfl

end Report

theorem run_runChecks (perform : Check → StateM σ Outcome) (print : Message → StateM σ Unit)
    (keepGoing : Bool) (checks : List Check) (world : σ) :
    (runChecks perform print keepGoing checks).run world =
      let ran := (Report.ofChecks perform keepGoing .blank checks).run world
      (ran.1.exitCode, ((ran.1.messages.forM print).run ran.2).2) := by
  rfl

/-- The loop tells what happened. A check fails unless its command ends with status zero. The
commands that ran are those up to the first that fails, or all of them to keep going; the summary
and the failures have a line for each attempt and for each failed one, in order; and all of it is
printed before the run ends with its exit code. -/
theorem runChecks_tells_what_happened (perform : Check → StateM σ Outcome)
    (print : Message → StateM σ Unit) (keepGoing : Bool) (checks : List Check) (world : σ) :
    let planned := Attempt.inOrder perform checks world
    let line (attempt : Attempt) : String :=
      attempt.check.name ++ String.ofList (List.replicate (10 - attempt.check.name.length) ' ') ++
        if attempt.outcome.status? = some 0 then " ok    " else " FAILED"
    let failure (attempt : Attempt) : String :=
      (if keepGoing then "- " else "") ++ attempt.check.name ++ ": " ++ attempt.check.advice
    ∃ attempts report after,
      (keepGoing = true → attempts = planned)
      ∧ (keepGoing = false → (∀ attempt ∈ planned, attempt.outcome.status? = some 0) →
          attempts = planned)
      ∧ (keepGoing = false → ∀ before failed rest, planned = before ++ failed :: rest →
          (∀ attempt ∈ before, attempt.outcome.status? = some 0) →
          failed.outcome.status? ≠ some 0 → attempts = before ++ [failed])
      ∧ ((attempts.map (·.check)).mapM perform).run world = (attempts.map (·.outcome), after)
      ∧ (Report.ofChecks perform keepGoing .blank checks).run world = (report, after)
      ∧ report.attempts = attempts
      ∧ report.summary = attempts.map line
      ∧ report.failures =
          (attempts.filter fun attempt => attempt.outcome.status? ≠ some 0).map failure
      ∧ (keepGoing = false → report.failures.length ≤ 1)
      ∧ report.messages
          = .output "\nSummary:"
            :: attempts.map (fun attempt =>
              .output ("  " ++ line attempt ++ " " ++ elapsedText attempt.outcome.elapsed))
            ++ (if ∀ attempt ∈ attempts, attempt.outcome.status? = some 0 then [] else
              [.error ("One or more CI commands failed:\n" ++ "\n".intercalate report.failures)])
      ∧ (runChecks perform print keepGoing checks).run world
          = (if ∀ attempt ∈ attempts, attempt.outcome.status? = some 0 then 0 else 101,
            ((report.messages.forM print).run after).2) := by
  intro planned line failure
  let attempts := Attempt.made keepGoing planned
  obtain ⟨after, hloop, hworld⟩ := Report.run_ofChecks perform keepGoing checks .blank world
  let report := attempts.foldl (Report.note keepGoing) .blank
  have hattempts : report.attempts = attempts := by
    simp [report, Report.attempts_foldl_note, Report.blank]
  have hfailed := Attempt.filter_failed attempts
  have hfailures : report.failures =
      (attempts.filter fun attempt => attempt.outcome.status? ≠ some 0).map failure := by
    rw [Report.failures_foldl_note, Report.blank, List.nil_append, hfailed]
    exact List.map_congr_left fun attempt _ => attempt.failure_eq keepGoing
  have hnone : report.failures = [] ↔
      ∀ attempt ∈ attempts, attempt.outcome.status? = some 0 := by
    rw [hfailures, List.map_eq_nil_iff, List.filter_eq_nil_iff]
    simp
  have hline : ∀ attempt : Attempt, attempt.summary = line attempt := Attempt.summary_eq
  refine ⟨attempts, report, after, ?_, ?_, ?_, hworld, hloop, hattempts, ?_, hfailures, ?_, ?_, ?_⟩
  · rintro rfl
    rfl
  · rintro rfl hpassed
    exact Attempt.made_of_passed fun attempt hmem => Attempt.passed_iff.mpr (hpassed attempt hmem)
  · rintro rfl before failed rest hsplit hbefore hfails
    have hmade : Attempt.made false (before ++ failed :: rest) = before ++ [failed] :=
      Attempt.made_of_failed (fun attempt hmem => Attempt.passed_iff.mpr (hbefore attempt hmem))
        (Attempt.passed_eq_false_iff.mpr hfails)
    rwa [← hsplit] at hmade
  · rw [Report.summary, hattempts]
    exact List.map_congr_left fun attempt _ => hline attempt
  · rintro rfl
    rw [hfailures, List.length_map, ← hfailed]
    exact Attempt.length_failed_made_le_one _
  · rw [Report.messages_eq, hattempts]
    simp only [hnone, ← hline]
    rfl
  · have hcode : report.exitCode = _ := report.exitCode_eq
    simp only [hnone] at hcode
    rw [run_runChecks, hloop, ← hcode]

/-- A check that passes, one that cannot be started and one that fails, in a world where it is
written down which commands ran and what was printed. -/
theorem runChecks_tells_what_happened_mixed :
    let named (name : String) : Check :=
      { name, arguments := [], environment := [], advice := "Please look." }
    let perform (check : Check) : StateM (List String) Outcome := fun written =>
      let status? :=
        if check.name = "miri" then none else if check.name = "doc" then some 1 else some 0
      ({ status?, elapsed := .zero }, written ++ [check.name])
    let print (message : Message) : StateM (List String) Unit := fun written =>
      match message with
      | .output text | .error text => ((), written ++ [text])
    let outcome (keepGoing : Bool) (checks : List Check) : Nat × List String :=
      (runChecks perform print keepGoing checks).run []
    outcome false [named "format", named "miri", named "doc"] =
        (101, ["format", "miri", "\nSummary:", "  format     ok     0.0ns",
          "  miri       FAILED 0.0ns", "One or more CI commands failed:\nmiri: Please look."]) ∧
      outcome true [named "format", named "miri", named "doc"] =
        (101, ["format", "miri", "doc", "\nSummary:", "  format     ok     0.0ns",
          "  miri       FAILED 0.0ns", "  doc        FAILED 0.0ns",
          "One or more CI commands failed:\n- miri: Please look.\n- doc: Please look."]) ∧
      outcome false [named "format"] =
        (0, ["format", "\nSummary:", "  format     ok     0.0ns"]) := by
  intro named perform print outcome
  let attempt (name : String) (status? : Option Nat) : Attempt :=
    { check := named name, outcome := { status?, elapsed := .zero } }
  have htold := fun keepGoing checks =>
    runChecks_tells_what_happened perform print keepGoing checks []
  refine ⟨?_, ?_, ?_⟩
  · obtain ⟨attempts, report, after, -, -, hfirst, hworld, -, -, -, hfailures, -, hmessages,
        hrun⟩ := htold false [named "format", named "miri", named "doc"]
    obtain rfl : attempts = [attempt "format" (some 0), attempt "miri" none] :=
      hfirst rfl [attempt "format" (some 0)] (attempt "miri" none) [attempt "doc" (some 1)] rfl
        (by decide) (by decide)
    obtain rfl : ["format", "miri"] = after := congrArg Prod.snd hworld
    rw [hmessages, hfailures] at hrun
    exact (show outcome _ _ = _ from hrun).trans (by decide +kernel)
  · obtain ⟨attempts, report, after, hall, -, -, hworld, -, -, -, hfailures, -, hmessages,
        hrun⟩ := htold true [named "format", named "miri", named "doc"]
    obtain rfl : attempts =
        [attempt "format" (some 0), attempt "miri" none, attempt "doc" (some 1)] := hall rfl
    obtain rfl : ["format", "miri", "doc"] = after := congrArg Prod.snd hworld
    rw [hmessages, hfailures] at hrun
    exact (show outcome _ _ = _ from hrun).trans (by decide +kernel)
  · obtain ⟨attempts, report, after, -, hpassing, -, hworld, -, -, -, hfailures, -, hmessages,
        hrun⟩ := htold false [named "format"]
    obtain rfl : attempts = [attempt "format" (some 0)] := hpassing rfl (by decide)
    obtain rfl : ["format"] = after := congrArg Prod.snd hworld
    rw [hmessages, hfailures] at hrun
    exact (show outcome _ _ = _ from hrun).trans (by decide +kernel)

end FairQueue.Checks
