import FairQueue.Proofs.Handoff.Outcomes
import FairQueue.Proofs.Handoff.Refinement

/-!
No internal rule is ever found broken, so that no call leaves the lock broken. A call breaks off
only because of what its caller brought along: a source that fails or a log that refuses the event.
-/

namespace FairQueue

variable {α : Type} {h : Handoff α} {step : Step α} {panic : Panic}

/-- What a caller brought along makes the call break off. -/
def Panic.Foreign (panic : Panic) (step : Step α) : Prop :=
  match panic with
  | .fault _ | .lockBroken => False
  | .refused _ => step.refusing = true
  | .sourceFailed request =>
    ∃ source, step.action = .putAll source ∧ source.failure? = some request

theorem Panic.foreign_of_anonymous (hforeign : panic.anonymous.Foreign step) :
    panic.Foreign step := by
  cases panic <;> exact hforeign

namespace Handoff

theorem turn_reply {action : Action α} {clock : Clock}
    (hreply : (h.turn action clock).reply = .panicked panic) :
    ∃ source request, action = .putAll source ∧ source.failure? = some request ∧
      panic = .sourceFailed request := by
  cases action with
  | putAll source =>
      cases hfailure : source.failure? with
      | some request =>
          simp only [turn, hfailure, Reply.panicked.injEq] at hreply
          exact ⟨source, request, rfl, hfailure, hreply.symm⟩
      | none => simp [turn, hfailure] at hreply
  | start c removal => exact absurd hreply (h.consumes_start c removal clock).reply
  | wake c => exact absurd hreply (h.consumes_wake c clock).reply
  | next name =>
      simp only [turn] at hreply
      split at hreply <;> cases hreply
  | query query => cases query <;> cases hreply
  | _ => cases hreply

theorem foreign_of_step (hreply : (h.step step).2.reply = .panicked panic) :
    panic.Foreign step := by
  by_cases hopen : step.action = .close → h.inside ≠ []
  · rw [step_of_open hopen] at hreply
    simp only [Turn.entry] at hreply
    split at hreply
    · rename_i hrefusing
      simp only [Reply.panicked.injEq] at hreply
      subst hreply
      exact hrefusing
    · obtain ⟨source, request, haction, hfailure, rfl⟩ := turn_reply hreply
      exact ⟨source, haction, hfailure⟩
  · obtain ⟨haction, hinside⟩ : step.action = .close ∧ h.inside = [] := by simpa using hopen
    rw [step_close haction hinside] at hreply
    cases hrefusing : step.refusing with
    | true =>
        simp only [closing, hrefusing, if_true, Reply.panicked.injEq] at hreply
        subst hreply
        exact hrefusing
    | false => simp [closing, hrefusing] at hreply

end Handoff

namespace Session

theorem foreign_of_entry {s : Option (Session α)} {h : Option (Handoff α)}
    (hentry : (step? s step).2.anonymous = (Handoff.step? h step).2)
    (hreply : (step? s step).2.reply = .panicked panic) : panic.Foreign step := by
  have hanonymous : (Handoff.step? h step).2.reply = .panicked panic.anonymous := by
    rw [← hentry]
    simp [Entry.anonymous, hreply, Reply.anonymous]
  cases h with
  | some h => exact Panic.foreign_of_anonymous (Handoff.foreign_of_step hanonymous)
  | none => cases hanonymous

theorem broken_of_represents {s : Session α} (hrepresents : s.Represents h) :
    s.queue.broken = false := by
  obtain ⟨r, served, waiting, hseated, -, -⟩ := hrepresents
  exact hseated.intact

theorem foreign_of_run {s : Option (Session α)} {h : Option (Handoff α)} {steps : List (Step α)}
    (hrepresents : Option.Rel Represents s h) (hcount : Handoff.CountFits h steps) :
    ∀ p ∈ steps.zip (run s steps).2, ∀ panic, p.2.reply = .panicked panic → panic.Foreign p.1 := by
  induction steps generalizing s h with
  | nil => simp
  | cons step steps ih =>
      obtain ⟨hstep, hrest⟩ := hcount.of_cons
      obtain ⟨hentry, hnext⟩ := step?_represents hrepresents hstep
      have hlater := ih hnext hrest
      intro p hp panic hreply
      simp only [run, List.zip_cons_cons, List.mem_cons] at hp
      rcases hp with rfl | hp
      · exact foreign_of_entry hentry hreply
      · exact hlater p hp panic hreply

end Session

end FairQueue
