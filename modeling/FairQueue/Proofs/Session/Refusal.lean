import FairQueue.Proofs.Call.Refusal
import FairQueue.Proofs.History.Assignment

/-!
A step whose event the log refuses, beside the same step with a log that takes it: what is left of
the session is the same, and whatever would have been delivered is destroyed.
-/

namespace FairQueue

open Call

variable {α γ : Type}

/-- What is seen if the log refuses the event that this entry shows, if it shows one. -/
def Entry.refused (e : Entry α) : Entry α :=
  match e.logged with
  | [] => e
  | event :: _ =>
    { e with
      reply := .panicked (.refused event)
      logged := []
      destroyed := e.destroyed ++ e.reply.freight }

theorem Entry.refused_of_nil {e : Entry α} (hlogged : e.logged = []) : e.refused = e := by
  simp only [Entry.refused, hlogged]

/-- The same step with a log that takes every event. -/
def Step.heard (step : Step α) : Step α :=
  { step with refusing := false }

namespace Session

variable {s : Session α} {action : Action α} {jumps : List Time}

/-- A step that ended in `taken`, with one event at most, ends in `refused` if the log refuses that
event. -/
def EndsAlike (taken refused : γ × Entry α) : Prop :=
  taken.2.logged.length ≤ 1 ∧ refused = (taken.1, taken.2.refused)

theorem endsAlike_of_nil {taken : γ × Entry α} (hlogged : taken.2.logged = []) :
    EndsAlike taken taken := by
  refine ⟨by simp [hlogged], ?_⟩
  rw [Entry.refused_of_nil hlogged]

theorem make_endsAlike {call : Call α (Reply α)}
    (h : Concludes (fun reply freight => freight = reply.freight) call) :
    EndsAlike (s.make ⟨action, false, jumps⟩ call) (s.make ⟨action, true, jumps⟩ call) := by
  obtain ⟨scene, hlogged, ⟨panic, hpanic⟩ | ⟨event, freight, reply, hfreight, hend⟩⟩ :=
    h (s.scene ⟨action, false, jumps⟩)
  · have hcall : ∀ refusing, call (s.scene ⟨action, refusing, jumps⟩) =
        .error panic (scene.withLog refusing) := hpanic
    simp only [make, hcall]
    exact endsAlike_of_nil hlogged
  · have hcall : ∀ refusing, call (s.scene ⟨action, refusing, jumps⟩) =
        conclude event freight reply (scene.withLog refusing) := hend
    have hnothing : scene.logged = [] := hlogged
    simp only [make, hcall, conclude_eq]
    cases event with
    | none => exact endsAlike_of_nil (by simp [entry, Scene.withLog, hnothing])
    | some event =>
        refine ⟨by simp [entry, Scene.withLog, hnothing], ?_⟩
        simp [entry, after, Scene.withLog, hnothing, Entry.refused, hfreight (by simp)]

theorem consume_endsAlike {c : Consumer} {call : Call α (Progress α)}
    (h : Concludes Progress.Delivers call) :
    EndsAlike (s.consume ⟨action, false, jumps⟩ c call)
      (s.consume ⟨action, true, jumps⟩ c call) := by
  obtain ⟨scene, hlogged, ⟨panic, hpanic⟩ | ⟨event, freight, progress, hfreight, hend⟩⟩ :=
    h (s.scene ⟨action, false, jumps⟩)
  · have hcall : ∀ refusing, call (s.scene ⟨action, refusing, jumps⟩) =
        .error panic (scene.withLog refusing) := hpanic
    simp only [consume, hcall]
    exact endsAlike_of_nil hlogged
  · have hcall : ∀ refusing, call (s.scene ⟨action, refusing, jumps⟩) =
        conclude event freight progress (scene.withLog refusing) := hend
    have hnothing : scene.logged = [] := hlogged
    simp only [consume, hcall, conclude_eq]
    cases event with
    | none => exact endsAlike_of_nil (by simp [entry, Scene.withLog, hnothing])
    | some event =>
        -- only a call that returns reports an event, so nobody falls asleep in either run
        obtain ⟨item, rfl, rfl⟩ := hfreight (by simp)
        refine ⟨by simp [entry, Scene.withLog, hnothing], ?_⟩
        simp [entry, after, Scene.withLog, hnothing, Entry.refused, Progress.sleeper?,
          Progress.reply, Reply.freight]

theorem close_of_line {scene : Scene α} (hline : scene.queue.line.isEmpty = false) :
    Call.close scene = .error (.fault .closedOnLine)
      { scene with destroyed := scene.destroyed ++ scene.queue.contents } := by
  rw [Call.close, bind_of_ok (get_eq scene)]
  refine bind_of_error ?_ _
  rw [holding_eq]
  simp only [hline]
  rfl

theorem close_endsAlike :
    EndsAlike ((none : Option (Session α)), s.close ⟨action, false, jumps⟩)
      (none, s.close ⟨action, true, jumps⟩) := by
  cases hline : s.queue.line.isEmpty with
  | true =>
      have hrefused : Call.close (s.scene ⟨action, true, jumps⟩) = _ :=
        Call.close_refused hline rfl
      have hreported : Call.close (s.scene ⟨action, false, jumps⟩) = _ :=
        Call.close_reported hline rfl
      simp only [close, hrefused, hreported]
      refine ⟨by simp [entry, scene], ?_⟩
      simp [entry, scene, Entry.refused, Reply.freight]
  | false =>
      have hcall : ∀ refusing, Call.close (s.scene ⟨action, refusing, jumps⟩) = _ :=
        fun refusing => close_of_line hline
      simp only [close, hcall]
      exact endsAlike_of_nil rfl

theorem EndsAlike.stillOpen {taken refused : Session α × Entry α} (h : EndsAlike taken refused) :
    EndsAlike (stillOpen taken) (stillOpen refused) := by
  obtain ⟨hlength, rfl⟩ := h
  exact ⟨hlength, rfl⟩

theorem removal_endsAlike (c : Consumer) (removal : Removal) :
    EndsAlike (s.consume ⟨action, false, jumps⟩ c removal.call)
      (s.consume ⟨action, true, jumps⟩ c removal.call) := by
  cases removal with
  | take => exact consume_endsAlike silent_take.concludes
  | takeWithin span => exact consume_endsAlike (concludes_takeWithin span)
  | takeUntil deadline => exact consume_endsAlike (concludes_takeUntil deadline)

theorem step_endsAlike (s : Session α) (action : Action α) (jumps : List Time) :
    EndsAlike (s.step ⟨action, false, jumps⟩) (s.step ⟨action, true, jumps⟩) := by
  cases action with
  | put item => exact (make_endsAlike ((concludes_put item).bind_pure rfl)).stillOpen
  | putAll source => exact (make_endsAlike ((concludes_putAll source).bind_pure rfl)).stillOpen
  | poll => exact (make_endsAlike (silent_poll.map _).concludes).stillOpen
  | drain max => exact (make_endsAlike ((silent_drain max).map _).concludes).stillOpen
  | openIterator name => exact endsAlike_of_nil rfl
  | next name =>
      simp only [Session.step]
      split
      · exact (make_endsAlike (silent_poll.map _).concludes).stillOpen
      · exact endsAlike_of_nil rfl
  | start c removal =>
      simp only [Session.step]
      split
      · exact endsAlike_of_nil rfl
      · exact (removal_endsAlike c removal).stillOpen
  | wake c =>
      simp only [Session.step]
      split
      · exact (consume_endsAlike (concludes_resume _)).stillOpen
      · exact endsAlike_of_nil rfl
  | advance span => exact endsAlike_of_nil rfl
  | query query => exact (make_endsAlike (silent_look _).concludes).stillOpen
  | close =>
      simp only [Session.step]
      split
      · exact close_endsAlike
      · exact endsAlike_of_nil rfl

/-- Whatever events the log refuses, a run leaves what it would leave with a log that takes them. -/
theorem run_heard (s : Option (Session α)) (steps : List (Step α)) :
    (run s steps).1 = (run s (steps.map Step.heard)).1 := by
  induction steps generalizing s with
  | nil => rfl
  | cons step steps ih =>
      have hstep : (step? s step).1 = (step? s step.heard).1 := by
        cases s with
        | none => rfl
        | some s =>
            obtain ⟨action, refusing, jumps⟩ := step
            cases refusing with
            | false => rfl
            | true =>
                have hsame := congrArg Prod.fst (s.step_endsAlike action jumps).2
                exact hsame
      simp only [run, List.map_cons, ← hstep]
      exact ih _

/-- A log that refuses the event of a step changes nothing but how that step ends. Without an event
the step is the same. With one the call breaks off and shows it, what it would have delivered is
destroyed, and all else is as if the log had taken the event: what is left of the session, whom the
step notified, and every later run. Closing a queue destroys the stored items, the oldest first,
whether or not it can be reported. -/
theorem step_outlasts_refusal (s : Session α) (action : Action α) (jumps : List Time) :
    let taken := s.step ⟨action, false, jumps⟩
    let refused := s.step ⟨action, true, jumps⟩
    (taken.2.logged = [] → refused = taken) ∧
      (∀ event events, taken.2.logged = event :: events →
        events = [] ∧ refused.1 = taken.1 ∧ refused.2.reply = .panicked (.refused event) ∧
          refused.2.logged = [] ∧ refused.2.notified = taken.2.notified ∧
          refused.2.destroyed = taken.2.destroyed ++ taken.2.reply.freight ∧
          refused.2.stats = taken.2.stats) ∧
      (∀ opening opened before, open? opening = some opened →
        Handoff.CountFits (some Handoff.empty) before → (run (some opened) before).1 = some s →
        taken.1 = none →
        taken.2.destroyed = s.queue.items ∧ refused.2.destroyed = s.queue.items) ∧
      (∀ later, run refused.1 later = run taken.1 later) ∧
      ∀ steps, (run (some s) steps).1 = (run (some s) (steps.map Step.heard)).1 := by
  intro taken refused
  obtain ⟨hlength, hrefused⟩ : EndsAlike taken refused := s.step_endsAlike action jumps
  have hnext : refused.1 = taken.1 := by rw [hrefused]
  refine ⟨fun hlogged => ?_, fun event events hlogged => ?_, ?_, fun later => ?_,
    fun steps => run_heard (some s) steps⟩
  · rw [hrefused, Entry.refused_of_nil hlogged]
  · have hevents : events = [] := by
      rw [hlogged, List.length_cons] at hlength
      exact List.length_eq_zero_iff.mp (by omega)
    have hentry : refused.2 = taken.2.refused := by rw [hrefused]
    simp only [Entry.refused, hlogged] at hentry
    simp [hentry, hevents, hnext]
  · intro opening opened before hopen hcount hlast hclosed
    obtain ⟨rfl, -⟩ := open?_eq_some_iff.mp hopen
    obtain ⟨h, -, hrepresents⟩ := exists_represents represents_empty hcount hlast
    exact ⟨(hrepresents.closed hclosed).2.2, (hrepresents.closed (hnext.trans hclosed)).2.2⟩
  · rw [hnext]

/-- A bounded consumer is woken up with an item, but the log refuses to hear of it. -/
theorem step_outlasts_refusal_collected :
    let served := (((ofQueue Queue.empty : Session Nat).act
      (.start 1 (.takeUntil { secs := 5, nanos := 0 })) []).1.act (.put 7) []).1
    let taken := served.step ⟨.wake 1, false, []⟩
    let refused := served.step ⟨.wake 1, true, []⟩
    refused.1 = taken.1 ∧ refused.2.destroyed = [7] := by
  intro served taken refused
  obtain ⟨-, hevent, -⟩ := step_outlasts_refusal served (.wake 1) []
  obtain ⟨-, hnext, -, -, -, hdestroyed, -⟩ := hevent (.collected 0) [] (by decide)
  exact ⟨hnext, hdestroyed.trans (by decide)⟩

end Session

end FairQueue
