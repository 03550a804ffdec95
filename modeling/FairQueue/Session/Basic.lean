import FairQueue.Session.Action

/-!
A queue in use, step by step. A consumer runs only in the step that starts or wakes it, until it
returns or falls asleep; a bell that rings for it is seen but wakes nobody. The clock stands still
but for the steps that advance it and the jumps that a step brings along.
-/

namespace FairQueue

structure Session (α : Type) where
  queue : Queue α
  now : Time
  /-- The consumers asleep, in the order in which they joined the line. -/
  sleepers : List (Consumer × Sleeper)
  iterators : List Nat
deriving DecidableEq

inductive Opening where
  | plain
  /-- With room for `capacity` items of `itemSize` bytes each. -/
  | withCapacity (capacity : Nat) (itemSize : Nat := 1)
deriving DecidableEq

namespace Opening

variable {α : Type}

def queue? : Opening → Option (Queue α)
  | plain => some Queue.empty
  | withCapacity capacity itemSize => Queue.withCapacity? itemSize capacity

def overflowMessage : String := Fault.noRoom.message

end Opening

namespace Session

variable {α β : Type}

def ofQueue (queue : Queue α) : Session α where
  queue := queue
  now := Time.zero
  sleepers := []
  iterators := []

def open? (opening : Opening) : Option (Session α) :=
  opening.queue?.map ofQueue

def sleeper? (s : Session α) (c : Consumer) : Option Sleeper :=
  s.sleepers.lookup c

/-- The consumers asleep on any of the bells, in the order of the bells. -/
def asleepOn (s : Session α) (bells : List Nat) : List Consumer :=
  bells.flatMap fun bell =>
    (s.sleepers.filter fun sleeper => sleeper.2.place.bell = bell).map (·.1)

def withoutSleeper (s : Session α) (c : Consumer) : Session α :=
  { s with sleepers := s.sleepers.filter fun sleeper => sleeper.1 ≠ c }

/-- The consumer falls asleep; one that was asleep before keeps its turn. -/
def withSleeper (s : Session α) (c : Consumer) (sleeper : Sleeper) : Session α :=
  if (s.sleeper? c).isSome then
    { s with sleepers := s.sleepers.map fun old => if old.1 = c then (c, sleeper) else old }
  else
    { s with sleepers := s.sleepers ++ [(c, sleeper)] }

def scene (s : Session α) (step : Step α) : Scene α where
  queue := s.queue
  clock := { now := s.now, jumps := step.jumps }
  refusing := step.refusing
  rung := []
  logged := []
  destroyed := []

def after (s : Session α) (scene : Scene α) : Session α :=
  { s with queue := scene.queue, now := scene.clock.now }

def entry (s : Session α) (scene : Scene α) (reply : Reply α) : Entry α where
  reply := reply
  notified := s.asleepOn scene.rung
  logged := scene.logged
  destroyed := scene.destroyed
  stats := some scene.queue.stats

def answer (s : Session α) (reply : Reply α) : Session α × Entry α :=
  (s, { reply, notified := [], logged := [], destroyed := [], stats := some s.queue.stats })

def make (s : Session α) (step : Step α) (call : Call α (Reply α)) : Session α × Entry α :=
  match call (s.scene step) with
  | .ok reply scene => (s.after scene, s.entry scene reply)
  | .error panic scene => (s.after scene, s.entry scene (.panicked panic))

/-- Runs a consumer until it returns, falls asleep or breaks off. -/
def consume (s : Session α) (step : Step α) (c : Consumer) (call : Call α (Progress α)) :
    Session α × Entry α :=
  match call (s.scene step) with
  | .ok progress scene =>
    let next := match progress.sleeper? with
      | some sleeper => (s.after scene).withSleeper c sleeper
      | none => (s.after scene).withoutSleeper c
    (next, s.entry scene progress.reply)
  | .error panic scene => ((s.after scene).withoutSleeper c, s.entry scene (.panicked panic))

/-- What is seen when the queue is closed, with or without a panic. -/
def close (s : Session α) (step : Step α) : Entry α :=
  match Call.close (s.scene step) with
  | .ok _ scene => { s.entry scene .done with stats := none }
  | .error panic scene => { s.entry scene (.panicked panic) with stats := none }

def stillOpen (next : Session α × Entry α) : Option (Session α) × Entry α :=
  (some next.1, next.2)

/-- One step of a session in a memory without end. No session is left once the queue is closed. -/
def step (s : Session α) (step : Step α) : Option (Session α) × Entry α :=
  match step.action with
  | .put item => stillOpen <| s.make step do
    Call.put item
    return .done
  | .putAll source => stillOpen <| s.make step do
    Call.putAll source
    return .done
  | .poll => stillOpen <| s.make step (.delivered <$> Call.poll)
  | .drain max => stillOpen <| s.make step (.items <$> Call.drain max)
  | .openIterator name => stillOpen <| { s with iterators := name :: s.iterators }.answer .done
  | .next name =>
    if s.iterators.contains name then
      stillOpen <| s.make step (.delivered <$> Call.poll)
    else
      stillOpen <| s.answer (.rejected .noIterator)
  | .start c removal =>
    match s.sleeper? c with
    | some _ => stillOpen <| s.answer (.rejected .busy)
    | none => stillOpen <| s.consume step c removal.call
  | .wake c =>
    match s.sleeper? c with
    | some sleeper => stillOpen <| s.consume step c (Call.resume sleeper)
    | none => stillOpen <| s.answer (.rejected .idle)
  | .advance span => stillOpen <| { s with now := s.now + span }.answer .done
  | .query query => stillOpen <| s.make step (Call.look query.answer)
  | .close =>
    if s.sleepers.isEmpty then
      (none, s.close step)
    else
      stillOpen <| s.answer (.rejected .inUse)

/-- One step of a session whose items take `itemSize` bytes each, where memory has an end. -/
def stepSized (itemSize : Nat) (s : Session α) (step : Step α) : Option (Session α) × Entry α :=
  match step.action with
  | .put item => stillOpen <| s.make step do
    Call.putSized itemSize item
    return .done
  | .putAll source => stillOpen <| s.make step do
    Call.putAllSized itemSize source
    return .done
  | _ => s.step step

/-- One action that leaves the queue open, with a log that takes every event. -/
def act (s : Session α) (action : Action α) (jumps : List Time) : Session α × Entry α :=
  match s.step { action, refusing := false, jumps } with
  | (some s, entry) => (s, entry)
  | (none, entry) => (s, entry)

def closedEntry : Entry α where
  reply := .rejected .closed
  notified := []
  logged := []
  destroyed := []
  stats := none

def step? (s : Option (Session α)) (step : Step α) : Option (Session α) × Entry α :=
  match s with
  | some s => s.step step
  | none => (none, closedEntry)

def run (s : Option (Session α)) : List (Step α) → Option (Session α) × List (Entry α)
  | [] => (s, [])
  | step :: steps =>
    let (s, entry) := step? s step
    let (s, entries) := run s steps
    (s, entry :: entries)

def stepSized? (itemSize : Nat) (s : Option (Session α)) (step : Step α) :
    Option (Session α) × Entry α :=
  match s with
  | some s => s.stepSized itemSize step
  | none => (none, closedEntry)

def runSized (itemSize : Nat) (s : Option (Session α)) :
    List (Step α) → Option (Session α) × List (Entry α)
  | [] => (s, [])
  | step :: steps =>
    let (s, entry) := stepSized? itemSize s step
    let (s, entries) := runSized itemSize s steps
    (s, entry :: entries)

end Session

end FairQueue
