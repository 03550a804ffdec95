import FairQueue.Proofs.Call.Outcome

/-!
What a log that refuses events can change about a call. Whatever a call does under the lock, with
the clock and with the bells takes no notice of the log, and the log comes in at the very end only.
-/

namespace FairQueue

/-- A turn of a blocking call that returns delivers its item, if it has one. -/
def Progress.Delivers {α : Type} (progress : Progress α) (freight : List α) : Prop :=
  ∃ item, progress = .returned item ∧ freight = item.toList

/-- The same scene with a log that refuses events, or with one that takes them. -/
def Scene.withLog {α : Type} (scene : Scene α) (refusing : Bool) : Scene α :=
  { scene with refusing }

namespace Call

variable {α β γ : Type} {delivers : β → List α → Prop}

/-- The call reports nothing, and it ends in the same way whatever the log would do. -/
def Silent (call : Call α β) : Prop :=
  ∀ scene : Scene α, ∃ scene' : Scene α, scene'.logged = scene.logged ∧
    ((∃ panic, ∀ refusing,
        call (scene.withLog refusing) = .error panic (scene'.withLog refusing)) ∨
      ∃ result, ∀ refusing, call (scene.withLog refusing) = .ok result (scene'.withLog refusing))

/-- Whatever the log would do, the call breaks off in the same way before it reports anything, or it
comes to the same end with at most one event to report. While it reports an event it holds what its
result delivers. -/
def Concludes (delivers : β → List α → Prop) (call : Call α β) : Prop :=
  ∀ scene : Scene α, ∃ scene' : Scene α, scene'.logged = scene.logged ∧
    ((∃ panic, ∀ refusing,
        call (scene.withLog refusing) = .error panic (scene'.withLog refusing)) ∨
      ∃ event freight result, (event ≠ none → delivers result freight) ∧
        ∀ refusing, call (scene.withLog refusing) =
          conclude event freight result (scene'.withLog refusing))

theorem Silent.concludes {call : Call α β} (h : Silent call) : Concludes delivers call := by
  intro scene
  obtain ⟨scene', hlogged, hpanic | ⟨result, hresult⟩⟩ := h scene
  · exact ⟨scene', hlogged, .inl hpanic⟩
  · refine ⟨scene', hlogged, .inr ⟨none, [], result, fun hevent => absurd rfl hevent, ?_⟩⟩
    intro refusing
    rw [hresult, conclude_eq]
    simp

theorem Silent.bind {call : Call α β} {next : β → Call α γ} (h : Silent call)
    (hnext : ∀ result, Silent (next result)) : Silent (call >>= next) := by
  intro scene
  obtain ⟨scene₁, hlogged, ⟨panic, hpanic⟩ | ⟨result, hresult⟩⟩ := h scene
  · exact ⟨scene₁, hlogged, .inl ⟨panic, fun refusing => bind_of_error (hpanic refusing) next⟩⟩
  · obtain ⟨scene₂, hlogged₂, hend⟩ := hnext result scene₁
    refine ⟨scene₂, hlogged₂.trans hlogged, ?_⟩
    simpa only [bind_of_ok (hresult _)] using hend

theorem Silent.bind_concludes {delivers : γ → List α → Prop} {call : Call α β} {next : β → Call α γ}
    (h : Silent call) (hnext : ∀ result, Concludes delivers (next result)) :
    Concludes delivers (call >>= next) := by
  intro scene
  obtain ⟨scene₁, hlogged, ⟨panic, hpanic⟩ | ⟨result, hresult⟩⟩ := h scene
  · exact ⟨scene₁, hlogged, .inl ⟨panic, fun refusing => bind_of_error (hpanic refusing) next⟩⟩
  · obtain ⟨scene₂, hlogged₂, hend⟩ := hnext result scene₁
    refine ⟨scene₂, hlogged₂.trans hlogged, ?_⟩
    simpa only [bind_of_ok (hresult _)] using hend

/-- A call that has nothing to deliver may be followed by an answer that delivers nothing. -/
theorem Concludes.bind_pure {call : Call α β} (h : Concludes (fun _ freight => freight = []) call)
    {delivers : γ → List α → Prop} {answer : γ} (hanswer : delivers answer []) :
    Concludes delivers (call >>= fun _ => pure answer) := by
  intro scene
  obtain ⟨scene', hlogged, ⟨panic, hpanic⟩ | ⟨event, freight, result, hfreight, hend⟩⟩ := h scene
  · exact ⟨scene', hlogged, .inl ⟨panic, fun refusing => bind_of_error (hpanic refusing) _⟩⟩
  · refine ⟨scene', hlogged, .inr ⟨event, freight, answer, fun hevent => ?_, fun refusing => ?_⟩⟩
    · rw [hfreight hevent]
      exact hanswer
    · exact bind_of_conclude (hend refusing) answer

theorem Silent.map {call : Call α β} (h : Silent call) (f : β → γ) : Silent (f <$> call) := by
  intro scene
  obtain ⟨scene', hlogged, ⟨panic, hpanic⟩ | ⟨result, hresult⟩⟩ := h scene
  · refine ⟨scene', hlogged, .inl ⟨panic, fun refusing => ?_⟩⟩
    simp only [Functor.map, EStateM.map, hpanic]
  · exact ⟨scene', hlogged, .inr ⟨f result, fun refusing => map_of_ok (hresult refusing) f⟩⟩

theorem silent_pure (result : β) : Silent (pure result : Call α β) :=
  fun scene => ⟨scene, rfl, .inr ⟨result, fun _ => rfl⟩⟩

theorem locked_of_broken {operation : Queue α → Except Fault (β × Queue α)} {scene : Scene α}
    (hbroken : scene.queue.broken = true) : locked operation scene = .error .lockBroken scene := by
  simp only [locked, bind, EStateM.bind, get_eq, hbroken]
  rfl

theorem silent_locked (operation : Queue α → Except Fault (β × Queue α)) :
    Silent (locked operation) := by
  intro scene
  cases hbroken : scene.queue.broken with
  | true => exact ⟨scene, rfl, .inl ⟨.lockBroken, fun _ => locked_of_broken hbroken⟩⟩
  | false =>
      cases hoperation : operation scene.queue with
      | ok result =>
          exact ⟨{ scene with queue := result.2 }, rfl,
            .inr ⟨result.1, fun refusing => locked_of_ok hbroken hoperation⟩⟩
      | error fault =>
          exact ⟨{ scene with queue := { scene.queue with broken := true } }, rfl,
            .inl ⟨.fault fault, fun refusing => locked_of_error hbroken hoperation⟩⟩

theorem silent_look (f : Queue α → β) : Silent (look f) :=
  silent_locked _

theorem silent_readClock : Silent (readClock : Call α Time) :=
  fun scene => ⟨{ scene with clock := scene.clock.read.2 }, rfl,
    .inr ⟨scene.clock.now, fun refusing => readClock_eq (scene.withLog refusing)⟩⟩

theorem silent_ring (bells : List Nat) : Silent (ring bells : Call α Unit) :=
  fun scene => ⟨{ scene with rung := scene.rung ++ bells }, rfl, .inr ⟨(), fun _ => rfl⟩⟩

theorem silent_draw (source : Source α) : Silent source.draw := by
  intro scene
  cases hfailure : source.failure? with
  | some request =>
      exact ⟨{ scene with destroyed := scene.destroyed ++ source.items.take request }, rfl,
        .inl ⟨.sourceFailed request, fun _ => draw_of_failure hfailure⟩⟩
  | none => exact ⟨scene, rfl, .inr ⟨source.items, fun _ => draw_of_none hfailure⟩⟩

theorem concludes_conclude (event : Option Event) {freight : List α} {result : β}
    (hfreight : delivers result freight) : Concludes delivers (conclude event freight result) :=
  fun scene => ⟨scene, rfl, .inr ⟨event, freight, result, fun _ => hfreight, fun _ => rfl⟩⟩

theorem concludes_report (event : Event) :
    Concludes (fun _ freight => freight = []) (report event : Call α Unit) := by
  refine fun scene => ⟨scene, rfl, .inr ⟨some event, [], (), fun _ => rfl, fun refusing => ?_⟩⟩
  rw [report_eq, conclude_eq]
  cases refusing <;> simp [Scene.withLog]

theorem silent_poll : Silent (poll : Call α (Option α)) :=
  silent_locked _

theorem silent_pollMany (count : Nat) : Silent (pollMany count : Call α (List α)) := by
  induction count with
  | zero => exact silent_pure []
  | succ count ih =>
      refine silent_poll.bind fun item => ?_
      cases item with
      | none => exact silent_pure []
      | some item => exact ih.bind fun items => silent_pure (item :: items)

theorem silent_drain (max : Option Nat) : Silent (drain max : Call α (List α)) :=
  (silent_look _).bind fun size => silent_pollMany (max.getD size)

theorem concludes_put (item : α) : Concludes (fun _ freight => freight = []) (put item) := by
  refine (silent_locked _).bind_concludes fun place => ?_
  cases place with
  | none => exact (silent_pure ()).concludes
  | some place => exact (silent_ring _).bind_concludes fun _ => concludes_report _

theorem concludes_putAll (source : Source α) :
    Concludes (fun _ freight => freight = []) (putAll source) := by
  refine (silent_draw source).bind_concludes fun items => ?_
  split
  · exact (silent_pure ()).concludes
  · refine (silent_locked _).bind_concludes fun places => ?_
    exact (silent_ring _).bind_concludes fun _ => concludes_report _

theorem silent_take : Silent (take : Call α (Progress α)) := by
  refine silent_poll.bind fun item => ?_
  cases item with
  | some item => exact silent_pure _
  | none =>
      refine (silent_look _).bind fun ahead => ?_
      exact (silent_locked _).bind fun place => silent_pure _

theorem concludes_waitUntil (place : Place) (deadline : Time) :
    Concludes Progress.Delivers (waitUntil place deadline : Call α (Progress α)) := by
  refine silent_readClock.bind_concludes fun now => ?_
  split
  · refine (silent_locked _).bind_concludes fun item => ?_
    cases item with
    | none => exact (concludes_report _).bind_pure ⟨none, rfl, rfl⟩
    | some item => exact (silent_pure _).concludes
  · exact (silent_pure _).concludes

theorem concludes_takeUntil (deadline : Time) :
    Concludes Progress.Delivers (takeUntil deadline : Call α (Progress α)) := by
  refine silent_poll.bind_concludes fun item => ?_
  cases item with
  | some item => exact (silent_pure _).concludes
  | none =>
      refine silent_readClock.bind_concludes fun now => ?_
      split
      · exact (silent_pure _).concludes
      · exact (silent_locked _).bind_concludes fun place => concludes_waitUntil place deadline

theorem concludes_takeWithin (span : Time) :
    Concludes Progress.Delivers (takeWithin span : Call α (Progress α)) := by
  refine silent_readClock.bind_concludes fun now => ?_
  cases now.plus? span with
  | some deadline => exact concludes_takeUntil deadline
  | none => exact silent_take.concludes

theorem concludes_resume (sleeper : Sleeper) :
    Concludes Progress.Delivers (resume sleeper : Call α (Progress α)) := by
  refine (silent_locked _).bind_concludes fun item => ?_
  cases item with
  | some item => exact concludes_conclude (some _) ⟨some item, rfl, rfl⟩
  | none =>
      cases sleeper.patience with
      | endless ahead => exact (silent_pure _).concludes
      | deadline time => exact concludes_waitUntil sleeper.place time

end Call

end FairQueue
