import FairQueue.Call.Consumer
import FairQueue.Call.Producer

namespace FairQueue

/-- The name of a thread inside a blocking call. -/
abbrev Consumer := Nat

inductive Removal where
  | take
  | takeWithin (span : Time)
  | takeUntil (deadline : Time)
deriving DecidableEq

inductive Query where
  | size
  | isEmpty
  | waiting
  | removed
  /-- The queue's counters on one line. -/
  | inline
  /-- The queue's counters on a line each. -/
  | block
  /-- The snapshot of the counters on one line. -/
  | snapshot
  | pristine
deriving DecidableEq

inductive Action (α : Type) where
  | put (item : α)
  | putAll (source : Source α)
  | poll
  /-- Polls until the queue is empty or `max` items came out. -/
  | drain (max : Option Nat)
  /-- Opens an iterator that polls whenever it is asked for its next item. -/
  | openIterator (name : Nat)
  | next (name : Nat)
  | start (consumer : Consumer) (removal : Removal)
  /-- The sleep of a consumer ends, for whatever reason. -/
  | wake (consumer : Consumer)
  | advance (span : Time)
  | query (query : Query)
  | close
deriving DecidableEq

/-- An action, whether the log refuses events in it, and the jumps of the clock after its
readings. -/
structure Step (α : Type) where
  action : Action α
  refusing : Bool
  jumps : List Time
deriving DecidableEq

inductive Rejection where
  | noIterator
  | busy
  | idle
  | inUse
  | closed
deriving DecidableEq

/-- What whoever takes a step is told. -/
inductive Reply (α : Type) where
  | done
  | delivered (item : Option α)
  | items (items : List α)
  | asleep (limit : Option Time)
  | number (n : Nat)
  | truth (b : Bool)
  | text (s : String)
  | rejected (rejection : Rejection)
  | panicked (panic : Panic)
deriving DecidableEq

structure Entry (α : Type) where
  reply : Reply α
  /-- The consumers asleep on the bells that were rung. -/
  notified : List Consumer
  logged : List Event
  destroyed : List α
  /-- The counters after the step, unless the queue is closed. -/
  stats : Option Stats
deriving DecidableEq

namespace Removal

variable {α : Type}

def call : Removal → Call α (Progress α)
  | take => Call.take
  | takeWithin span => Call.takeWithin span
  | takeUntil deadline => Call.takeUntil deadline

end Removal

namespace Query

variable {α : Type}

def answer (query : Query) (q : Queue α) : Reply α :=
  match query with
  | size => .number q.items.length
  | isEmpty => .truth q.items.isEmpty
  | waiting => .number q.line.size
  | removed => .number q.removed
  | inline => .text (q.stats.inline "BlockingQueue")
  | block => .text (q.stats.block "BlockingQueue")
  | snapshot => .text (q.stats.inline "Stats")
  | pristine => .truth (q.stats = Stats.zero)

end Query

namespace Progress

variable {α : Type}

def reply : Progress α → Reply α
  | returned item => .delivered item
  | asleep _ limit => .asleep limit

def sleeper? : Progress α → Option Sleeper
  | returned _ => none
  | asleep sleeper _ => some sleeper

end Progress

end FairQueue
