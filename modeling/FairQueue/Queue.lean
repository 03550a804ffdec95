import FairQueue.Line.Basic

/-!
The queue that the lock guards: the stored items, the line of waiting consumers and a count of the
items removed so far. An item is stored only while nobody waits.
-/

namespace FairQueue

structure Queue (α : Type) where
  /-- The stored items, oldest first. -/
  items : List α
  line : Line α
  removed : Nat
  /-- Whether a call broke off with the lock held. -/
  broken : Bool
deriving DecidableEq

structure Stats where
  size : Nat
  waiting : Nat
  removed : Nat
deriving DecidableEq

namespace Stats

def zero : Stats where
  size := 0
  waiting := 0
  removed := 0

def inline (s : Stats) (title : String) : String :=
  s!"{title} \x7b size: {s.size}, waiting: {s.waiting}, visited: {s.removed} \x7d"

def block (s : Stats) (title : String) : String :=
  s!"{title} \x7b\n    size: {s.size},\n    waiting: {s.waiting},\n    visited: {s.removed},\n\x7d"

end Stats

namespace Queue

variable {α : Type}

def empty : Queue α where
  items := []
  line := Line.empty
  removed := 0
  broken := false

/-- Whether a buffer for `count` items of `itemSize` bytes each can be asked for: their number is a
64-bit word and their bytes are a signed one. Items of no size take up no bytes. -/
def fits (itemSize count : Nat) : Bool :=
  count < UInt64.size && itemSize * count < 0x8000000000000000

/-- An empty queue with room for `capacity` items, unless no memory can hold them. -/
def withCapacity? (itemSize capacity : Nat) : Option (Queue α) :=
  if fits itemSize capacity then some empty else none

def stats (q : Queue α) : Stats where
  size := q.items.length
  waiting := q.line.size
  removed := q.removed

/-- Everything that the queue still owns: the stored items, then those served and not collected. -/
def contents (q : Queue α) : List α :=
  q.items ++ q.line.servedItems

def countRemoval (q : Queue α) : Except Fault (Queue α) :=
  if q.removed + 1 < UInt64.size then
    .ok { q with removed := q.removed + 1 }
  else
    .error .removedCount

/-- Gives an item to the consumer that has waited longest, or stores it if there is none. The
result is the place whose bell was rung. -/
def put (q : Queue α) (item : α) : Except Fault (Option Place × Queue α) := do
  match ← q.line.serve item with
  | (some place, line) => return (some place, { q with line })
  | (none, line) =>
    if line.isEmpty then
      return (none, { q with items := q.items ++ [item], line })
    throw .storedPastLine

/-- How many items are stored once `count` new ones have come of which the waiting take theirs. -/
def needed (q : Queue α) (count : Nat) : Nat :=
  q.items.length + (count - q.line.size)

/-- Makes room for those of `count` new items that nobody waits for. This is about the room that
they need: a buffer that grows may ask for as much again. -/
def reserve (itemSize : Nat) (q : Queue α) (count : Nat) : Except Fault Unit :=
  if fits itemSize (q.needed count) then .ok () else .error .noRoom

/-- Puts several items in order. The result is the places whose bells were rung, in order. -/
def putAll (q : Queue α) : List α → Except Fault (List Place × Queue α)
  | [] => return ([], q)
  | item :: items => do
    let (place, q) ← q.put item
    let (places, q) ← q.putAll items
    return (place.toList ++ places, q)

def pop (q : Queue α) : Except Fault (Option α × Queue α) :=
  match q.items with
  | [] => return (none, q)
  | item :: items => do
    let q ← { q with items }.countRemoval
    return (some item, q)

def join (q : Queue α) : Except Fault (Place × Queue α) := do
  unless q.items.isEmpty do
    throw .waitingPastItems
  let (place, line) ← q.line.join
  return (place, { q with line })

/-- Hands out the item that a consumer in the line was served, if it was served one. -/
def collect (q : Queue α) (slot : Nat) : Except Fault (Option α × Queue α) := do
  match ← q.line.collect slot with
  | (some item, line) =>
    let q ← { q with line }.countRemoval
    return (some item, q)
  | (none, line) => return (none, { q with line })

/-- A consumer gives up its place. An item that it was served in the meantime is handed out. -/
def leave (q : Queue α) (slot : Nat) : Except Fault (Option α × Queue α) := do
  match ← q.line.leave slot with
  | (some item, line) =>
    let q ← { q with line }.countRemoval
    return (some item, q)
  | (none, line) => return (none, { q with line })

end Queue

end FairQueue
