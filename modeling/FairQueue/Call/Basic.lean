import FairQueue.Clock
import FairQueue.Event
import FairQueue.Queue

/-!
Calls on a queue as seen by the thread that makes them: they use the queue under its lock, read the
clock, ring bells, report to the log and destroy the items that they hold when they break off. What
a call did before it broke off stays done.
-/

namespace FairQueue

inductive Panic where
  | fault (fault : Fault)
  /-- An earlier call broke off with the lock held. -/
  | lockBroken
  | refused (event : Event)
  /-- The source of a batch failed at this request, counted from zero. -/
  | sourceFailed (request : Nat)
deriving DecidableEq

namespace Panic

def message : Panic → String
  | fault f => f.message
  | lockBroken => "called `Result::unwrap()` on an `Err` value: PoisonError \x7b .. \x7d"
  | refused event => s!"refused: {event.message}"
  | sourceFailed request => s!"iterator failed at {request}"

end Panic

structure Scene (α : Type) where
  queue : Queue α
  clock : Clock
  refusing : Bool
  rung : List Nat
  logged : List Event
  /-- The items destroyed instead of delivered, in order. -/
  destroyed : List α
deriving DecidableEq

abbrev Call (α β : Type) : Type :=
  EStateM Panic (Scene α) β

namespace Call

variable {α β : Type}

/-- Runs an operation under the lock. A fault leaves the lock broken. -/
def locked (operation : Queue α → Except Fault (β × Queue α)) : Call α β := do
  let scene ← get
  if scene.queue.broken then
    throw .lockBroken
  match operation scene.queue with
  | .ok (result, queue) =>
    set { scene with queue }
    return result
  | .error fault =>
    set { scene with queue := { scene.queue with broken := true } }
    throw (.fault fault)

def look (f : Queue α → β) : Call α β :=
  locked fun q => .ok (f q, q)

def readClock : Call α Time := do
  let scene ← get
  let reading := scene.clock.read
  set { scene with clock := reading.2 }
  return reading.1

def ring (bells : List Nat) : Call α Unit :=
  modify fun scene => { scene with rung := scene.rung ++ bells }

def destroy (items : List α) : Call α Unit :=
  modify fun scene => { scene with destroyed := scene.destroyed ++ items }

/-- Reports an event, unless the log refuses it: then the call breaks off. -/
def report (event : Event) : Call α Unit := do
  let scene ← get
  if scene.refusing then
    throw (.refused event)
  set { scene with logged := scene.logged ++ [event] }

/-- Runs a part of a call while it holds `items`: if that part breaks off, they are destroyed. -/
def holding (items : List α) (part : Call α β) : Call α β :=
  tryCatch part fun panic => do
    destroy items
    throw panic

theorem get_eq (scene : Scene α) : (get : Call α (Scene α)) scene = .ok scene scene :=
  rfl

theorem locked_of_ok {operation : Queue α → Except Fault (β × Queue α)} {scene : Scene α}
    {result : β} {queue : Queue α} (hbroken : scene.queue.broken = false)
    (hok : operation scene.queue = .ok (result, queue)) :
    locked operation scene = .ok result { scene with queue } := by
  simp only [locked, bind, EStateM.bind, get_eq, hbroken, hok]
  rfl

theorem locked_of_error {operation : Queue α → Except Fault (β × Queue α)} {scene : Scene α}
    {fault : Fault} (hbroken : scene.queue.broken = false)
    (herror : operation scene.queue = .error fault) :
    locked operation scene =
      .error (.fault fault) { scene with queue := { scene.queue with broken := true } } := by
  simp only [locked, bind, EStateM.bind, get_eq, hbroken, herror]
  rfl

theorem look_of_unbroken {f : Queue α → β} {scene : Scene α}
    (hbroken : scene.queue.broken = false) :
    look f scene = .ok (f scene.queue) scene :=
  locked_of_ok hbroken rfl

theorem readClock_eq (scene : Scene α) :
    (readClock scene : EStateM.Result Panic (Scene α) Time) =
      .ok scene.clock.now { scene with clock := scene.clock.read.2 } := by
  rw [← Clock.read_fst]
  rfl

/-- Whether an event is refused does not depend on the event. -/
theorem report_eq (event : Event) (scene : Scene α) :
    report event scene =
      if scene.refusing then .error (.refused event) scene
      else .ok () { scene with logged := scene.logged ++ [event] } := by
  simp only [report, bind, EStateM.bind, get_eq]
  split <;> rfl

theorem holding_eq (items : List α) (part : Call α β) (scene : Scene α) :
    holding items part scene =
      match part scene with
      | .ok result scene => .ok result scene
      | .error panic scene =>
        .error panic { scene with destroyed := scene.destroyed ++ items } := by
  simp only [holding, tryCatch, tryCatchThe, MonadExceptOf.tryCatch]
  delta EStateM.tryCatch
  cases part scene <;> rfl

end Call

end FairQueue
