import FairQueue.Proofs.Call.Endurance

/-!
A turn of a bounded call, cut in two where the call is about to give up its place. Every call of the
queue is what it does until then, followed by what it does from then on.
-/

namespace FairQueue

variable {α : Type}

/-- How far a turn has come when it is not going to give up its place, or is just about to. -/
inductive Approach (α : Type) where
  | ended (progress : Progress α)
  /-- The deadline has come for the consumer with this place. -/
  | due (place : Place)

namespace Call

def approachWaiting (place : Place) (deadline : Time) : Call α (Approach α) := do
  let now ← readClock
  if deadline ≤ now then
    return .due place
  return .ended (.asleep { place, patience := .deadline deadline } (some (deadline - now)))

def approachTaking (deadline : Time) : Call α (Approach α) := do
  match ← poll with
  | some item => return .ended (.returned (some item))
  | none =>
    let now ← readClock
    if deadline ≤ now then
      return .ended (.returned none)
    let place ← locked (·.join)
    approachWaiting place deadline

def approachTakingWithin (span : Time) : Call α (Approach α) := do
  let now ← readClock
  match now.plus? span with
  | some deadline => approachTaking deadline
  | none => .ended <$> take

def approachAwake (sleeper : Sleeper) : Call α (Approach α) := do
  let place := sleeper.place
  match ← locked (·.collect place.slot) with
  | some item =>
    holding [item] <| report <| match sleeper.patience with
      | .endless ahead => .collectedBehind place.slot ahead
      | .deadline _ => .collected place.slot
    return .ended (.returned (some item))
  | none =>
    match sleeper.patience with
    | .endless _ => return .ended (.asleep sleeper none)
    | .deadline time => approachWaiting place time

/-- Gives up a place. An item that the consumer was served in the meantime is taken along. -/
def giveUp (place : Place) : Call α (Progress α) := do
  let item ← locked (·.leave place.slot)
  if item.isNone then
    report (.timedOut place.slot)
  return .returned item

end Call

def Removal.approach (removal : Removal) : Call α (Approach α) :=
  match removal with
  | take => .ended <$> Call.take
  | takeWithin span => Call.approachTakingWithin span
  | takeUntil deadline => Call.approachTaking deadline

/-- The rest of the turn. -/
def Approach.finish : Approach α → Call α (Progress α)
  | ended progress => return progress
  | due place => Call.giveUp place

namespace Call

variable {scene scene' : Scene α} {place place' : Place} {deadline : Time} {q : Queue α}

theorem map_ended_finish (call : Call α (Progress α)) :
    ((Approach.ended <$> call) >>= Approach.finish) = call := by
  rw [map_eq_pure_bind, bind_assoc]
  simp [Approach.finish]

theorem waitUntil_eq_approach (place : Place) (deadline : Time) :
    (waitUntil place deadline : Call α (Progress α)) =
      approachWaiting place deadline >>= Approach.finish := by
  rw [waitUntil, approachWaiting, bind_assoc]
  refine bind_congr fun now => ?_
  split <;> rfl

theorem takeUntil_eq_approach (deadline : Time) :
    (takeUntil deadline : Call α (Progress α)) = approachTaking deadline >>= Approach.finish := by
  rw [takeUntil, approachTaking, bind_assoc]
  refine bind_congr fun item => ?_
  cases item with
  | some item => rfl
  | none =>
      simp only [bind_assoc]
      refine bind_congr fun now => ?_
      split
      · rfl
      · simp only [bind_assoc, waitUntil_eq_approach]

theorem call_eq_approach (removal : Removal) :
    (removal.call : Call α (Progress α)) = removal.approach >>= Approach.finish := by
  cases removal with
  | take => exact (map_ended_finish take).symm
  | takeUntil deadline => exact takeUntil_eq_approach deadline
  | takeWithin span =>
      change takeWithin span = approachTakingWithin span >>= Approach.finish
      rw [takeWithin, approachTakingWithin, bind_assoc]
      refine bind_congr fun now => ?_
      cases now.plus? span with
      | some deadline => exact takeUntil_eq_approach deadline
      | none => exact (map_ended_finish take).symm

theorem resume_eq_approach (sleeper : Sleeper) :
    (resume sleeper : Call α (Progress α)) = approachAwake sleeper >>= Approach.finish := by
  rw [resume, approachAwake, bind_assoc]
  refine bind_congr fun item => ?_
  cases item with
  | some item =>
      refine Eq.trans ?_ (bind_assoc _ _ _).symm
      cases sleeper.patience <;> rfl
  | none =>
      obtain ⟨place, patience⟩ := sleeper
      cases patience with
      | endless ahead => rfl
      | deadline time => exact waitUntil_eq_approach place time

/-- A call that is not about to give up when it ends. -/
theorem map_ended_ne_due {call : Call α (Progress α)} :
    (Approach.ended <$> call) scene ≠ .ok (.due place) scene' := by
  rw [map_eq_pure_bind]
  intro hdue
  obtain ⟨progress, left, -, hended⟩ := exists_of_bind hdue
  cases hended

theorem approachWaiting_due
    (hdue : approachWaiting place deadline scene = .ok (.due place') scene') :
    place' = place ∧ scene' = { scene with clock := scene.clock.read.2 } := by
  rw [approachWaiting, bind_of_ok (readClock_eq scene)] at hdue
  split at hdue <;> cases hdue
  exact ⟨rfl, rfl⟩

/-- A call that is about to give up in its first turn has just joined the line. -/
theorem approachTaking_due (hdue : approachTaking deadline scene = .ok (.due place) scene') :
    scene.queue.broken = false ∧ scene.queue.items = [] ∧
      ∃ queue clock, scene.queue.join = .ok (place, queue) ∧
        scene' = { scene with queue, clock } := by
  obtain ⟨item?, popped, hpoll, hrest⟩ := exists_of_bind hdue
  obtain ⟨hintact, q, hpop, rfl⟩ := exists_of_locked hpoll
  cases item? with
  | some item => cases hrest
  | none =>
      obtain rfl := Queue.pop_none hpop
      refine ⟨hintact, Queue.items_of_pop_none hpop, ?_⟩
      obtain ⟨now, read, hread, htail⟩ := exists_of_bind hrest
      obtain ⟨rfl, rfl⟩ := EStateM.Result.ok.inj ((readClock_eq _).symm.trans hread)
      split at htail
      · cases htail
      · obtain ⟨place', joined, hlocked, hwait⟩ := exists_of_bind htail
        obtain ⟨-, queue, hjoin, rfl⟩ := exists_of_locked hlocked
        obtain ⟨rfl, rfl⟩ := approachWaiting_due hwait
        exact ⟨queue, _, hjoin, rfl⟩

theorem approach_due {removal : Removal}
    (hdue : removal.approach scene = .ok (.due place) scene') :
    scene.queue.broken = false ∧ scene.queue.items = [] ∧
      ∃ queue clock, scene.queue.join = .ok (place, queue) ∧
        scene' = { scene with queue, clock } := by
  cases removal with
  | take => exact absurd hdue map_ended_ne_due
  | takeUntil deadline => exact approachTaking_due hdue
  | takeWithin span =>
      change approachTakingWithin span scene = _ at hdue
      rw [approachTakingWithin, bind_of_ok (readClock_eq scene)] at hdue
      generalize scene.clock.now.plus? span = deadline? at hdue
      cases deadline? with
      | none => exact absurd hdue map_ended_ne_due
      | some deadline =>
          obtain ⟨hintact, hitems, queue, clock, hjoin, rfl⟩ := approachTaking_due hdue
          exact ⟨hintact, hitems, queue, clock, hjoin, rfl⟩

/-- A call that is about to give up after a wake-up has just found that its slot keeps no item. -/
theorem approachAwake_due {sleeper : Sleeper}
    (hdue : approachAwake sleeper scene = .ok (.due place) scene') :
    scene.queue.broken = false ∧ place = sleeper.place ∧
      scene.queue.collect place.slot = .ok (none, scene.queue) ∧
      ∃ clock, scene' = { scene with clock } := by
  obtain ⟨item?, collected, hlocked, hrest⟩ := exists_of_bind hdue
  obtain ⟨hintact, q, hcollect, rfl⟩ := exists_of_locked hlocked
  cases item? with
  | some item =>
      obtain ⟨reported, left, -, hended⟩ := exists_of_bind hrest
      cases hended
  | none =>
      obtain ⟨rfl, -⟩ := Queue.leave_of_collect_none hcollect
      obtain ⟨place', patience⟩ := sleeper
      cases patience with
      | endless ahead => cases hrest
      | deadline time =>
          obtain ⟨rfl, rfl⟩ := approachWaiting_due hrest
          exact ⟨hintact, rfl, hcollect, _, rfl⟩

/-- Who leaves the line without an item says so, if the log listens. -/
theorem giveUp_of_leave (hintact : scene.queue.broken = false)
    (hleave : scene.queue.leave place.slot = .ok (none, q)) :
    giveUp place scene =
      conclude (some (.timedOut place.slot)) [] (.returned none) { scene with queue := q } := by
  have hlocked : locked (·.leave place.slot) scene = .ok none { scene with queue := q } :=
    locked_of_ok hintact hleave
  rw [giveUp, bind_of_ok hlocked]
  simp [conclude, holding_nil]

end Call

end FairQueue
