import FairQueue.Proofs.Call.Endurance

/-!
How a turn of a blocking call may end, whatever state it finds the queue in. A consumer sleeps for
the time that is left, if it has a deadline, and for ever if it has none; and only one with a
deadline comes back empty-handed.
-/

namespace FairQueue

open Call

variable {α β : Type}

/-- How a turn may end that a consumer with this patience takes at `now` or later. -/
inductive Patience.Allows (patience : Patience) (now : Time) :
    EStateM.Result Panic (Scene α) (Progress α) → Prop where
  | broken {panic : Panic} {scene : Scene α} (hpanic : ∀ event, panic ≠ .refused event)
      (hlogged : scene.logged = []) : Allows patience now (.error panic scene)
  | item {event : Option Event} {item : α} {scene : Scene α}
      (hevent : ∀ reported ∈ event, ∃ slot, reported = patience.collection slot)
      (hlogged : scene.logged = []) :
      Allows patience now (conclude event [item] (.returned (some item)) scene)
  | asleep {place : Place} {later : Time} {scene : Scene α} (hlater : now ≤ later)
      (hlogged : scene.logged = []) :
      Allows patience now (.ok (.asleep { place, patience } (patience.limit? later)) scene)
  | vain {event : Option Event} {deadline : Time} {scene : Scene α}
      (hpatience : patience = .deadline deadline) :
      Allows patience now (conclude event [] (.returned none) scene)

namespace Patience

variable {patience : Patience} {now deadline : Time} {scene : Scene α}

theorem Allows.of_le {now' : Time} {result : EStateM.Result Panic (Scene α) (Progress α)}
    (h : patience.Allows now' result) (hnow : now ≤ now') : patience.Allows now result := by
  cases h with
  | broken hpanic hlogged => exact .broken hpanic hlogged
  | item hevent hlogged => exact .item hevent hlogged
  | asleep hlater hlogged => exact .asleep (Time.le_trans hnow hlater) hlogged
  | vain hpatience => exact .vain hpatience

/-- A turn that returns an item without a word. -/
theorem allows_item (item : α) (hlogged : scene.logged = []) :
    patience.Allows now ((pure (.returned (some item)) : Call α (Progress α)) scene) := by
  change patience.Allows now (conclude none [item] (.returned (some item)) scene)
  exact .item (by rintro event ⟨⟩) hlogged

/-- A turn may break off wherever it uses the queue under its lock. -/
theorem allows_locked {operation : Queue α → Except Fault (β × Queue α)}
    {next : β → Call α (Progress α)} (hlogged : scene.logged = [])
    (hnext : ∀ result q, operation scene.queue = .ok (result, q) →
      patience.Allows now (next result { scene with queue := q })) :
    patience.Allows now ((locked operation >>= next) scene) := by
  refine locked_bind (fun panic left hpanic _ hleft => ?_) hnext
  exact .broken hpanic (hleft.trans hlogged)

variable (hlogged : scene.logged = [])

include hlogged

theorem allows_waitUntil (place : Place) (deadline : Time) :
    (Patience.deadline deadline).Allows scene.clock.now (waitUntil place deadline scene) := by
  rw [waitUntil, bind_of_ok (readClock_eq scene)]
  split
  · refine allows_locked hlogged fun item q _ => ?_
    cases item with
    | some item => exact allows_item item hlogged
    | none =>
        change Allows _ _ ((do report (.timedOut place.slot); return Progress.returned none) _)
        rw [report_then_return]
        exact .vain rfl
  · exact .asleep (Time.le_refl _) hlogged

theorem allows_takeUntil (deadline : Time) :
    (Patience.deadline deadline).Allows scene.clock.now (takeUntil deadline scene) := by
  refine allows_locked hlogged fun item q _ => ?_
  cases item with
  | some item => exact allows_item item hlogged
  | none =>
      have hread := readClock_eq { scene with queue := q }
      dsimp only
      rw [bind_of_ok hread]
      split
      · change Allows _ _ (conclude none [] (.returned none) _)
        exact .vain rfl
      · refine allows_locked hlogged fun place q' _ => ?_
        let joined : Scene α := { scene with queue := q', clock := scene.clock.read.2 }
        have hwait := allows_waitUntil (show joined.logged = [] from hlogged) place deadline
        exact hwait.of_le scene.clock.now_le_read

theorem allows_take :
    (Patience.endless scene.queue.line.size).Allows scene.clock.now (take scene) := by
  refine allows_locked hlogged fun item q hpop => ?_
  cases item with
  | some item => exact allows_item item hlogged
  | none =>
      obtain rfl := Queue.pop_none hpop
      refine allows_locked hlogged fun ahead q hlook => ?_
      cases hlook
      refine allows_locked hlogged fun place q _ => ?_
      exact .asleep (Time.le_refl _) hlogged

theorem allows_call (removal : Removal) :
    (removal.patience scene.clock.now scene.queue.line.size).Allows scene.clock.now
      (removal.call scene) := by
  cases removal with
  | take => exact allows_take hlogged
  | takeUntil deadline => exact allows_takeUntil hlogged deadline
  | takeWithin span =>
      let begun : Scene α := { scene with clock := scene.clock.read.2 }
      have hbegun : begun.logged = [] := hlogged
      change (Removal.patience _ _ _).Allows _ (takeWithin span scene)
      rw [takeWithin_eq]
      simp only [Removal.patience, Removal.deadline?]
      cases scene.clock.now.plus? span with
      | some deadline => exact (allows_takeUntil hbegun deadline).of_le scene.clock.now_le_read
      | none => exact (allows_take hbegun).of_le scene.clock.now_le_read

theorem allows_resume (sleeper : Sleeper) :
    sleeper.patience.Allows scene.clock.now (resume sleeper scene) := by
  obtain ⟨place, patience⟩ := sleeper
  refine allows_locked hlogged fun item q _ => ?_
  cases item with
  | some item =>
      have hevent : ∀ reported ∈ some (patience.collection place.slot),
          ∃ slot, reported = patience.collection slot := by
        rintro reported ⟨⟩
        exact ⟨place.slot, rfl⟩
      cases patience <;> exact .item hevent hlogged
  | none =>
      cases patience with
      | endless ahead => exact .asleep (Time.le_refl _) hlogged
      | deadline time =>
          let found : Scene α := { scene with queue := q }
          exact allows_waitUntil (show found.logged = [] from hlogged) place time

end Patience

end FairQueue
