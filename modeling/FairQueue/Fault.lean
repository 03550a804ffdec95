namespace FairQueue

def slotText (slot : Nat) : String :=
  s!"WaiterId({slot})"

/-- What breaks an operation on the queue off: an internal rule that is found broken, or a buffer
that cannot be had. -/
inductive Fault where
  | outOfBounds (slot size : Nat)
  /-- The slot was released and not taken again since. -/
  | released (slot : Nat)
  | notVacant (slot : Nat)
  | notWaiting (slot : Nat)
  | neighbourNotWaiting (slot : Nat)
  | lineCount
  /-- The count of removed items would leave the range of a 64-bit word. -/
  | removedCount
  /-- An item is about to be stored while consumers wait. -/
  | storedPastLine
  /-- A consumer is about to wait while items are stored. -/
  | waitingPastItems
  /-- The queue is closed while consumers wait. -/
  | closedOnLine
  /-- A buffer is to hold more items than a word can count, or more bytes than memory can have. -/
  | noRoom
deriving DecidableEq

namespace Fault

def message : Fault → String
  | outOfBounds slot size => s!"index out of bounds: the len is {size} but the index is {slot}"
  | released slot => s!"internal error: entered unreachable code: waiter {slotText slot} reclaimed after release"
  | notVacant slot => s!"internal error: entered unreachable code: waiter {slotText slot} on the free list is in use"
  | notWaiting slot => s!"internal error: entered unreachable code: waiter {slotText slot} unlinked while not parked"
  | neighbourNotWaiting slot => s!"internal error: entered unreachable code: waiter {slotText slot} is linked but not parked"
  | lineCount => "attempt to subtract with overflow"
  | removedCount => "attempt to add with overflow"
  | storedPastLine => "assertion failed: no consumer waits"
  | waitingPastItems => "assertion failed: no item is stored"
  | closedOnLine => "assertion failed: no consumer waits"
  | noRoom => "capacity overflow"

end Fault

end FairQueue
