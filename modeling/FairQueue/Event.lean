import FairQueue.Fault

namespace FairQueue

inductive Event where
  /-- An item went straight to the consumer in this slot. -/
  | served (slot : Nat)
  /-- Of a batch of `count` items, `direct` went straight to consumers. -/
  | batch (count direct : Nat)
  /-- A consumer without a deadline got its item after joining behind `ahead` others. -/
  | collectedBehind (slot ahead : Nat)
  | collected (slot : Nat)
  | timedOut (slot : Nat)
  | closing (size removed : Nat)
deriving DecidableEq

namespace Event

def level : Event → String
  | closing _ _ => "DEBUG"
  | _ => "TRACE"

def text : Event → String
  | served slot => s!"granted item to waiter {slotText slot}"
  | batch count direct => s!"enqueued batch of {count} items, {direct} granted to waiters"
  | collectedBehind slot ahead => s!"waiter {slotText slot} woke with an item after parking behind {ahead} others"
  | collected slot => s!"waiter {slotText slot} woke with an item"
  | timedOut slot => s!"waiter {slotText slot} timed out"
  | closing size removed => s!"dropping queue with {size} unclaimed items after {removed} dequeued"

def message (e : Event) : String :=
  s!"{e.level} {e.text}"

end Event

end FairQueue
