import FairQueue.Proofs.Call.Outcome
import FairQueue.Session.Basic

/-!
The queue as its users may think of it: stored items, a line of consumers, the items that some
consumers were served and have not collected, and a count. It has no slots, no links and no bells,
so the slot numbers in its events are all zero.
-/

namespace FairQueue

namespace Event

def anonymous : Event → Event
  | served _ => served 0
  | collectedBehind _ ahead => collectedBehind 0 ahead
  | collected _ => collected 0
  | timedOut _ => timedOut 0
  | batch count direct => batch count direct
  | closing size removed => closing size removed

@[simp] theorem anonymous_collection (patience : Patience) (slot : Nat) :
    (patience.collection slot).anonymous = patience.collection 0 := by
  cases patience <;> rfl

end Event

def Panic.anonymous : Panic → Panic
  | .refused event => .refused event.anonymous
  | panic => panic

def Reply.anonymous {α : Type} : Reply α → Reply α
  | .panicked panic => .panicked panic.anonymous
  | reply => reply

@[simp] theorem Reply.anonymous_refused {α : Type} (event : Event) :
    (panicked (.refused event) : Reply α).anonymous = .panicked (.refused event.anonymous) := rfl

def Entry.anonymous {α : Type} (e : Entry α) : Entry α :=
  { e with reply := e.reply.anonymous, logged := e.logged.map Event.anonymous }

structure Waiter where
  consumer : Consumer
  patience : Patience
deriving DecidableEq

def Waiter.collection (waiter : Waiter) : Event :=
  waiter.patience.collection 0

structure Handoff (α : Type) where
  /-- The stored items, oldest first. -/
  items : List α
  waiting : List Waiter
  /-- The consumers that were served and did not collect yet, with their items. -/
  served : List (Waiter × α)
  removed : Nat
  now : Time
  iterators : List Nat
deriving DecidableEq

/-- What a step of a hand-off queue does, with a log that takes its event. -/
structure Turn (α : Type) where
  queue : Handoff α
  clock : Clock
  reply : Reply α
  event : Option Event := none
  notified : List Consumer := []
  destroyed : List α := []

namespace Reply

variable {α : Type}

def freight : Reply α → List α
  | delivered item => item.toList
  | items l => l
  | _ => []

end Reply

namespace Query

variable {α : Type}

def fromStats (query : Query) (stats : Stats) : Reply α :=
  match query with
  | size => .number stats.size
  | isEmpty => .truth (stats.size = 0)
  | waiting => .number stats.waiting
  | removed => .number stats.removed
  | inline => .text (stats.inline "BlockingQueue")
  | block => .text (stats.block "BlockingQueue")
  | snapshot => .text (stats.inline "Stats")
  | pristine => .truth (stats = Stats.zero)

end Query

namespace Handoff

variable {α : Type}

def empty : Handoff α where
  items := []
  waiting := []
  served := []
  removed := 0
  now := Time.zero
  iterators := []

def stats (h : Handoff α) : Stats where
  size := h.items.length
  waiting := h.waiting.length
  removed := h.removed

/-- The consumers inside a blocking call, in the order in which they joined the line. -/
def inside (h : Handoff α) : List Waiter :=
  h.served.map (·.1) ++ h.waiting

theorem mem_waiting_of_find? {h : Handoff α} {w : Waiter} (hmem : w ∈ h.inside)
    (hfind : h.served.find? (·.1.consumer = w.consumer) = none) : w ∈ h.waiting := by
  refine (List.mem_append.mp hmem).resolve_left fun hserved => ?_
  obtain ⟨y, hy, rfl⟩ := List.mem_map.mp hserved
  simpa using List.find?_eq_none.mp hfind y hy

/-- The items go to the consumers at the front of the line, one each, and those that are left over
are stored. -/
def putAll (h : Handoff α) (items : List α) : Handoff α :=
  { h with
    items := h.items ++ items.drop h.waiting.length
    waiting := h.waiting.drop items.length
    served := h.served ++ h.waiting.zip items }

/-- Removes the oldest stored items, `count` of them at most. -/
def popMany (h : Handoff α) (count : Nat) : List α × Handoff α :=
  (h.items.take count,
    { h with
      items := h.items.drop count
      removed := h.removed + min count h.items.length })

theorem toList_head?_popMany (h : Handoff α) :
    (h.popMany 1).1.head?.toList = (h.popMany 1).1 := by
  cases hitems : h.items <;> simp [popMany, hitems]

def join (h : Handoff α) (waiter : Waiter) : Handoff α :=
  { h with waiting := h.waiting ++ [waiter] }

def leave (h : Handoff α) (c : Consumer) : Handoff α :=
  { h with waiting := h.waiting.filter (·.consumer ≠ c) }

def collect (h : Handoff α) (c : Consumer) : Handoff α :=
  { h with
    served := h.served.filter (·.1.consumer ≠ c)
    removed := h.removed + 1 }

/-- A consumer in the line gives up at its deadline; before it the consumer sleeps for the time that
is left. -/
def bide (h : Handoff α) (c : Consumer) (deadline : Time) (clock : Clock) : Turn α :=
  if deadline ≤ clock.now then
    { queue := h.leave c
      clock := clock.read.2
      reply := .delivered none
      event := some (.timedOut 0) }
  else
    { queue := h
      clock := clock.read.2
      reply := .asleep (some (deadline - clock.now)) }

def take (h : Handoff α) (c : Consumer) (clock : Clock) : Turn α :=
  match h.popMany 1 with
  | (item :: _, popped) => { queue := popped, clock, reply := .delivered (some item) }
  | ([], _) =>
    { queue := h.join { consumer := c, patience := .endless h.waiting.length }
      clock
      reply := .asleep none }

def takeUntil (h : Handoff α) (c : Consumer) (deadline : Time) (clock : Clock) : Turn α :=
  match h.popMany 1 with
  | (item :: _, popped) => { queue := popped, clock, reply := .delivered (some item) }
  | ([], _) =>
    if deadline ≤ clock.now then
      { queue := h, clock := clock.read.2, reply := .delivered none }
    else
      (h.join { consumer := c, patience := .deadline deadline }).bide c deadline clock.read.2

section Removal

variable {h : Handoff α} {c : Consumer} {deadline : Time} {clock : Clock} {item : α}
  {items : List α}

theorem take_of_cons (hitems : h.items = item :: items) :
    h.take c clock =
      { queue := (h.popMany 1).2, clock, reply := .delivered (some item) } := by
  simp [take, popMany, hitems]

theorem take_of_nil (hitems : h.items = []) :
    h.take c clock =
      { queue := h.join { consumer := c, patience := .endless h.waiting.length }
        clock
        reply := .asleep none } := by
  simp [take, popMany, hitems]

theorem takeUntil_of_cons (hitems : h.items = item :: items) :
    h.takeUntil c deadline clock =
      { queue := (h.popMany 1).2, clock, reply := .delivered (some item) } := by
  simp [takeUntil, popMany, hitems]

theorem takeUntil_of_past (hitems : h.items = []) (hnow : deadline ≤ clock.now) :
    h.takeUntil c deadline clock =
      { queue := h, clock := clock.read.2, reply := .delivered none } := by
  simp [takeUntil, popMany, hitems, hnow]

theorem takeUntil_of_early (hitems : h.items = []) (hnow : ¬ deadline ≤ clock.now) :
    h.takeUntil c deadline clock =
      (h.join { consumer := c, patience := .deadline deadline }).bide c deadline clock.read.2 := by
  simp [takeUntil, popMany, hitems, hnow]

end Removal

def start (h : Handoff α) (c : Consumer) (removal : Removal) (clock : Clock) : Turn α :=
  match removal with
  | .take => h.take c clock
  | .takeUntil deadline => h.takeUntil c deadline clock
  | .takeWithin span =>
    match clock.now.plus? span with
    | some deadline => h.takeUntil c deadline clock.read.2
    | none => h.take c clock.read.2

/-- The sleep of a consumer ends: it takes its item if it was served one, whatever the clock says,
or waits on. -/
def resume (h : Handoff α) (waiter : Waiter) (clock : Clock) : Turn α :=
  match h.served.find? (·.1.consumer = waiter.consumer) with
  | some (_, item) =>
    { queue := h.collect waiter.consumer
      clock
      reply := .delivered (some item)
      event := some waiter.collection }
  | none =>
    match waiter.patience with
    | .endless _ => { queue := h, clock, reply := .asleep none }
    | .deadline deadline => h.bide waiter.consumer deadline clock

def turn (h : Handoff α) (action : Action α) (clock : Clock) : Turn α :=
  match action with
  | .put item =>
    let notified := (h.waiting.take 1).map (·.consumer)
    { queue := h.putAll [item]
      clock
      reply := .done
      event := notified.head?.map fun _ => .served 0
      notified }
  | .putAll source =>
    match source.failure? with
    | some request =>
      { queue := h
        clock
        reply := .panicked (.sourceFailed request)
        destroyed := source.items.take request }
    | none =>
      let notified := (h.waiting.take source.items.length).map (·.consumer)
      { queue := h.putAll source.items
        clock
        reply := .done
        event := if source.items = [] then none
          else some (.batch source.items.length notified.length)
        notified }
  | .poll =>
    { queue := (h.popMany 1).2, clock, reply := .delivered (h.popMany 1).1.head? }
  | .drain max =>
    let popped := h.popMany (max.getD h.items.length)
    { queue := popped.2, clock, reply := .items popped.1 }
  | .openIterator name =>
    { queue := { h with iterators := name :: h.iterators }, clock, reply := .done }
  | .next name =>
    if name ∈ h.iterators then
      { queue := (h.popMany 1).2, clock, reply := .delivered (h.popMany 1).1.head? }
    else
      { queue := h, clock, reply := .rejected .noIterator }
  | .start c removal =>
    if c ∈ h.inside.map (·.consumer) then
      { queue := h, clock, reply := .rejected .busy }
    else
      h.start c removal clock
  | .wake c =>
    match h.inside.find? (·.consumer = c) with
    | some waiter => h.resume waiter clock
    | none => { queue := h, clock, reply := .rejected .idle }
  | .advance span =>
    { queue := h, clock := { clock with now := clock.now + span }, reply := .done }
  | .query query => { queue := h, clock, reply := query.fromStats h.stats }
  | .close => { queue := h, clock, reply := .rejected .inUse }

def closing (h : Handoff α) (refusing : Bool) : Entry α :=
  let event := Event.closing h.items.length h.removed
  { reply := if refusing then .panicked (.refused event) else .done
    notified := []
    logged := if refusing then [] else [event]
    destroyed := h.items
    stats := none }

end Handoff

namespace Turn

variable {α : Type}

/-- What is seen of a turn. If the log refuses the event, the call breaks off and what it was about
to deliver is destroyed. -/
def entry (t : Turn α) (refusing : Bool) : Entry α :=
  match t.event, refusing with
  | some event, true =>
    { reply := .panicked (.refused event)
      notified := t.notified
      logged := []
      destroyed := t.destroyed ++ t.reply.freight
      stats := some t.queue.stats }
  | event, _ =>
    { reply := t.reply
      notified := t.notified
      logged := event.toList
      destroyed := t.destroyed
      stats := some t.queue.stats }

@[simp] theorem stats_entry (t : Turn α) (refusing : Bool) :
    (t.entry refusing).stats = some t.queue.stats := by
  unfold entry
  split <;> rfl

theorem destroyed_entry (t : Turn α) : (t.entry false).destroyed = t.destroyed := by
  unfold entry
  split
  · cases ‹false = true›
  · rfl

end Turn

namespace Handoff

variable {α : Type}

/-- One step. No queue is left once it is closed, which takes that nobody is inside a call. -/
def step (h : Handoff α) (step : Step α) : Option (Handoff α) × Entry α :=
  match step.action, h.inside with
  | .close, [] => (none, h.closing step.refusing)
  | action, _ =>
    let t := h.turn action { now := h.now, jumps := step.jumps }
    (some { t.queue with now := t.clock.now }, t.entry step.refusing)

theorem step_close {step : Step α} {h : Handoff α} (haction : step.action = .close)
    (hinside : h.inside = []) : h.step step = (none, h.closing step.refusing) := by
  simp [Handoff.step, haction, hinside]

theorem step_of_open {step : Step α} {h : Handoff α}
    (hopen : step.action = .close → h.inside ≠ []) :
    h.step step =
      let t := h.turn step.action { now := h.now, jumps := step.jumps }
      (some { t.queue with now := t.clock.now }, t.entry step.refusing) := by
  unfold Handoff.step
  split
  · exact absurd ‹h.inside = []› (hopen ‹_›)
  · rfl

theorem step_of_ne_close {step : Step α} (h : Handoff α) (hopen : step.action ≠ .close) :
    h.step step =
      let t := h.turn step.action { now := h.now, jumps := step.jumps }
      (some { t.queue with now := t.clock.now }, t.entry step.refusing) :=
  step_of_open fun hclose => absurd hclose hopen

def step? (h : Option (Handoff α)) (step : Step α) : Option (Handoff α) × Entry α :=
  match h with
  | some h => h.step step
  | none => (none, Session.closedEntry)

def run (h : Option (Handoff α)) : List (Step α) → Option (Handoff α) × List (Entry α)
  | [] => (h, [])
  | step :: steps =>
    let (h, entry) := step? h step
    let (h, entries) := run h steps
    (h, entry :: entries)

/-- The count of removed items stays in the range of a 64-bit word all along. -/
def CountFits (h : Option (Handoff α)) (steps : List (Step α)) : Prop :=
  ∀ entry ∈ (run h steps).2, ∀ stats ∈ entry.stats, stats.removed < UInt64.size

instance (h : Option (Handoff α)) (steps : List (Step α)) : Decidable (CountFits h steps) :=
  inferInstanceAs
    (Decidable (∀ entry ∈ (run h steps).2, ∀ stats ∈ entry.stats, stats.removed < UInt64.size))

theorem CountFits.of_cons {h : Option (Handoff α)} {step : Step α} {steps : List (Step α)}
    (hcount : CountFits h (step :: steps)) :
    (∀ stats ∈ (step? h step).2.stats, stats.removed < UInt64.size) ∧
      CountFits (step? h step).1 steps :=
  ⟨hcount _ List.mem_cons_self, fun entry hentry => hcount entry (List.mem_cons_of_mem _ hentry)⟩

theorem CountFits.of_append {h : Option (Handoff α)} {steps later : List (Step α)}
    (hcount : CountFits h (steps ++ later)) :
    CountFits h steps ∧ CountFits (run h steps).1 later := by
  induction steps generalizing h with
  | nil => exact ⟨fun _ hentry => absurd hentry List.not_mem_nil, hcount⟩
  | cons step steps ih =>
      obtain ⟨hstep, hrest⟩ := hcount.of_cons
      obtain ⟨hsteps, hlater⟩ := ih hrest
      refine ⟨fun entry hentry => ?_, hlater⟩
      rcases List.mem_cons.mp hentry with rfl | hentry
      · exact hstep
      · exact hsteps entry hentry

end Handoff

end FairQueue
